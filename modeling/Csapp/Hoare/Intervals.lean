import Csapp.Lib.HalfOpen
import Mathlib.Data.Int.Order.Basic
import Mathlib.Data.List.Sort

/-!
# Hoare.Intervals — the interval consolidation of `14_hoare_logic_refactoring.py`

The contracts `requires` and `ensures` are functions around a body, and every check of the source is made
where the source makes it: a failed one is a `ContractError`, and so are the exceptions that the code could
raise otherwise.  An `Interval` is valid by construction, as `__post_init__` refuses the others.  The loop
of `collapseSortedIntervals` is `collapse` of Lib.HalfOpen (`collapseLoop_eq`), and none of its checks
fails.
-/

namespace Csapp.Hoare

open Csapp.Lib

abbrev Interval := HalfOpen ℤ

/-! ## The contract framework -/

inductive ContractError
  | precondition (func description : String)
  | postcondition (func description : String)
  | loopInvariant (text : String) (currIdx : ℕ) (collapsed : List Interval)
  | valueError (start end_ : ℤ)
  | indexError
  deriving DecidableEq

section Contracts

variable {α β : Type}

def requires (predicate : α → Bool) (func description : String) (body : α → Except ContractError β) (args : α) :
    Except ContractError β :=
  if predicate args then body args else .error (.precondition func description)

def ensures (predicate : β → Bool) (func description : String) (body : α → Except ContractError β) (args : α) :
    Except ContractError β := do
  let result ← body args
  if predicate result then .ok result else .error (.postcondition func description)

variable {pre : α → Bool} {post : β → Bool} {func d d' : String} {body : α → Except ContractError β} {args : α}
  {result : β}

/-- The rule for a body with both contracts. -/
theorem contract_ok (hpre : pre args = true) (hbody : body args = .ok result) (hpost : post result = true) :
    requires pre func d (ensures post func d' body) args = .ok result := by
  rw [requires, if_pos hpre, ensures, hbody]
  exact if_pos hpost

end Contracts

/-! ## Predicates -/

/-- `Interval(start, end)`. -/
def newInterval (start end_ : ℤ) : Except ContractError Interval :=
  if h : start ≥ end_ then .error (.valueError start end_) else .ok ⟨start, end_, not_le.mp h⟩

def isValidInterval (iv : Interval) : Bool := decide (iv.start < iv.end_)

def areIntervalsTouchingOrOverlapping (a b : Interval) : Bool := decide (b.start ≤ a.end_)

def isSortedIntervals (intervals : List Interval) : Bool :=
  (intervals.zip intervals.tail).all fun p => decide (p.1.start ≤ p.2.start)

def isPairwiseDisjoint (intervals : List Interval) : Bool :=
  (intervals.zip intervals.tail).all fun p => decide (p.1.end_ < p.2.start)

/-! ## The legacy implementation -/

/-- The loop from the index of the first pair on. -/
def legacyLoop : List (ℤ × ℤ) → List (ℤ × ℤ) → Option (List (ℤ × ℤ))
  | [], merged => some merged
  | current :: rest, merged =>
    match merged.getLast? with
    | none => none
    | some last =>
      if current.1 ≤ last.2 then legacyLoop rest (merged.dropLast ++ [(last.1, max last.2 current.2)])
      else legacyLoop rest (merged ++ [current])

def legacyMergeIntervals (rawPairs : List (ℤ × ℤ)) : Option (List (ℤ × ℤ)) :=
  match rawPairs with
  | [] => some []
  | first :: rest => legacyLoop rest [first]

/-! ## The refactored functions -/

def mergeTwoTouching : Interval × Interval → Except ContractError Interval :=
  requires (fun p => isValidInterval p.1 && isValidInterval p.2 && decide (p.1.start ≤ p.2.start) &&
      areIntervalsTouchingOrOverlapping p.1 p.2) "merge_two_touching"
    "Intervals must be valid, ordered (a.start <= b.start), and touching or overlapping" <|
  ensures isValidInterval "merge_two_touching" "Result must be a valid consolidated interval" fun p =>
    let newStart := p.1.start
    let newEnd := max p.1.end_ p.2.end_
    newInterval newStart newEnd

def verifyLoopInvariant (currIdx : ℕ) (collapsed : List Interval) : Except ContractError Unit :=
  if ¬ isPairwiseDisjoint collapsed then
    .error (.loopInvariant "Collapsed output is not pairwise disjoint" currIdx collapsed)
  else if ¬ isSortedIntervals collapsed then
    .error (.loopInvariant "Collapsed output is not sorted" currIdx collapsed)
  else .ok ()

/-- The loop from `idx` on, over the intervals that are left. -/
def collapseLoop : ℕ → List Interval → List Interval → Except ContractError (List Interval)
  | _, [], collapsed => .ok collapsed
  | idx, candidate :: rest, collapsed =>
    match collapsed.getLast? with
    | none => .error .indexError
    | some last => do
      let collapsed ←
        if areIntervalsTouchingOrOverlapping last candidate then do
          let merged ← mergeTwoTouching (last, candidate)
          .ok (collapsed.dropLast ++ [merged])
        else .ok (collapsed ++ [candidate])
      verifyLoopInvariant idx collapsed
      collapseLoop (idx + 1) rest collapsed

def collapseSortedIntervals : List Interval → Except ContractError (List Interval) :=
  requires (fun intervals => intervals.all isValidInterval && isSortedIntervals intervals)
    "collapse_sorted_intervals"
    "Precondition P_collapse: All elements are valid intervals sorted by start time" <|
  ensures isPairwiseDisjoint "collapse_sorted_intervals"
    "Postcondition Q_collapse: Output intervals are strictly pairwise disjoint" fun intervals =>
    match intervals with
    | [] => .ok []
    | first :: rest => do
      verifyLoopInvariant 0 [first]
      collapseLoop 1 rest [first]

/-- The order of the sort key `(iv.start, iv.end)`. -/
def KeyLe (a b : Interval) : Prop := a.start < b.start ∨ a.start = b.start ∧ a.end_ ≤ b.end_

instance : DecidableRel KeyLe := fun a b =>
  inferInstanceAs (Decidable (a.start < b.start ∨ a.start = b.start ∧ a.end_ ≤ b.end_))

def sortIntervalsByStart : List Interval → Except ContractError (List Interval) :=
  requires (fun intervals => intervals.all isValidInterval) "sort_intervals_by_start"
    "Precondition P_any: Elements must be valid intervals (order does not matter)" <|
  ensures isSortedIntervals "sort_intervals_by_start"
    "Intermediate Assertion R: Intervals are strictly sorted by start" fun intervals =>
    .ok (intervals.insertionSort KeyLe)

def consolidateIntervals : List Interval → Except ContractError (List Interval) :=
  requires (fun intervals => intervals.all isValidInterval) "consolidate_intervals"
    "Precondition: Any collection of valid Interval objects" <|
  ensures isPairwiseDisjoint "consolidate_intervals"
    "Postcondition: Consolidated intervals are strictly pairwise disjoint" fun intervals => do
    let sortedIntervals ← sortIntervalsByStart intervals
    collapseSortedIntervals sortedIntervals

/-! ## The checks -/

/-- For a transitive relation, neighbours are enough. -/
theorem all_adjacent_iff {r : Interval → Interval → Prop} [DecidableRel r]
    (htrans : ∀ a b c, r a b → r b c → r a c) (l : List Interval) :
    ((l.zip l.tail).all fun p => decide (r p.1 p.2)) = true ↔ l.Pairwise r := by
  induction l with
  | nil => simp
  | cons a l ih =>
    cases l with
    | nil => simp
    | cons b l =>
      rw [List.pairwise_cons, ← ih, List.tail_cons, List.zip_cons_cons, List.all_cons, Bool.and_eq_true,
        decide_eq_true_eq, List.tail_cons]
      refine and_congr_left fun hall => ⟨fun hab c hc => ?_, fun h => h b List.mem_cons_self⟩
      rcases List.mem_cons.mp hc with rfl | hc
      · exact hab
      · exact htrans a b c hab ((List.pairwise_cons.mp (ih.mp hall)).1 c hc)

theorem isSortedIntervals_iff (l : List Interval) :
    isSortedIntervals l = true ↔ l.Pairwise fun a b => a.start ≤ b.start :=
  all_adjacent_iff (r := fun a b => a.start ≤ b.start) (fun _ _ _ hab hbc => hab.trans hbc) l

theorem isPairwiseDisjoint_iff (l : List Interval) : isPairwiseDisjoint l = true ↔ Apart l :=
  all_adjacent_iff (r := fun a b => a.end_ < b.start) (fun _ b _ hab hbc => hab.trans (b.valid.trans hbc)) l

theorem isValidInterval_eq (iv : Interval) : isValidInterval iv = true := decide_eq_true iv.valid

theorem all_isValidInterval (l : List Interval) : l.all isValidInterval = true :=
  List.all_eq_true.mpr fun iv _ => isValidInterval_eq iv

theorem sorted_of_apart {l : List Interval} (h : Apart l) : l.Pairwise fun a b => a.start ≤ b.start :=
  List.Pairwise.imp (fun {a} _ hab => le_of_lt (a.valid.trans hab)) h

theorem verifyLoopInvariant_ok {l : List Interval} (idx : ℕ) (h : Apart l) : verifyLoopInvariant idx l = .ok () := by
  have h1 := (isPairwiseDisjoint_iff l).mpr h
  have h2 := (isSortedIntervals_iff l).mpr (sorted_of_apart h)
  rw [verifyLoopInvariant, if_neg (not_not.mpr h1), if_neg (not_not.mpr h2)]

theorem mergeTwoTouching_ok {a b : Interval} (hs : a.start ≤ b.start) (ht : b.start ≤ a.end_) :
    mergeTwoTouching (a, b) = .ok (a.hull b) := by
  refine contract_ok ?_ (dif_neg (not_le.mpr (a.hull b).valid)) (isValidInterval_eq _)
  simp [isValidInterval_eq, areIntervalsTouchingOrOverlapping, hs, ht]

/-! ## The loops -/

/-- The loop of the code is a fold of `absorb`; what it has merged so far stands in the other order. -/
theorem collapseLoop_eq : ∀ (rest : List Interval) (idx : ℕ) (a : Interval) (acc : List Interval),
    Mergeable (a :: acc) rest →
    collapseLoop idx rest (a :: acc).reverse = .ok (rest.foldl absorb (a :: acc)).reverse
  | [], idx, a, acc, _ => rfl
  | b :: rest, idx, a, acc, h => by
    have hs : a.start ≤ b.start := h.above a rfl b List.mem_cons_self
    have hstep := h.absorb
    rw [collapseLoop, List.getLast?_reverse, List.head?_cons]
    simp only [areIntervalsTouchingOrOverlapping, decide_eq_true_eq]
    rw [List.foldl_cons]
    rw [absorb] at hstep ⊢
    split_ifs at hstep ⊢ with ht
    · have hlist : (a :: acc).reverse.dropLast ++ [a.hull b] = (a.hull b :: acc).reverse := by simp
      rw [mergeTwoTouching_ok hs ht]
      show (verifyLoopInvariant idx ((a :: acc).reverse.dropLast ++ [a.hull b]) >>= fun _ =>
        collapseLoop (idx + 1) rest ((a :: acc).reverse.dropLast ++ [a.hull b])) = _
      rw [hlist, verifyLoopInvariant_ok idx hstep.apart]
      exact collapseLoop_eq rest (idx + 1) (a.hull b) acc hstep
    · have hlist : (a :: acc).reverse ++ [b] = (b :: a :: acc).reverse := by simp
      show (verifyLoopInvariant idx ((a :: acc).reverse ++ [b]) >>= fun _ =>
        collapseLoop (idx + 1) rest ((a :: acc).reverse ++ [b])) = _
      rw [hlist, verifyLoopInvariant_ok idx hstep.apart]
      exact collapseLoop_eq rest (idx + 1) b (a :: acc) hstep

/-- The pair of an interval. -/
def toPair (iv : Interval) : ℤ × ℤ := (iv.start, iv.end_)

/-- The legacy loop is the same fold, in any order of the input. -/
theorem legacyLoop_eq : ∀ (rest : List Interval) (a : Interval) (acc : List Interval),
    legacyLoop (rest.map toPair) ((a :: acc).reverse.map toPair) =
      some ((rest.foldl absorb (a :: acc)).reverse.map toPair)
  | [], a, acc => rfl
  | b :: rest, a, acc => by
    rw [List.map_cons, legacyLoop, List.getLast?_map, List.getLast?_reverse, List.head?_cons, Option.map_some,
      List.foldl_cons, absorb]
    dsimp only
    by_cases ht : (toPair b).1 ≤ (toPair a).2
    · have hlist : ((a :: acc).reverse.map toPair).dropLast ++ [((toPair a).1, max (toPair a).2 (toPair b).2)] =
          (a.hull b :: acc).reverse.map toPair := by simp [toPair, HalfOpen.hull]
      rw [if_pos ht, if_pos (show b.start ≤ a.end_ from ht), hlist]
      exact legacyLoop_eq rest (a.hull b) acc
    · have hlist : (a :: acc).reverse.map toPair ++ [toPair b] = (b :: a :: acc).reverse.map toPair := by simp
      rw [if_neg ht, if_neg (show ¬ b.start ≤ a.end_ from ht), hlist]
      exact legacyLoop_eq rest b (a :: acc)

/-! ## The functions -/

theorem collapseSortedIntervals_ok {l : List Interval} (h : l.Pairwise fun a b => a.start ≤ b.start) :
    collapseSortedIntervals l = .ok (collapse l) := by
  have hpre : (l.all isValidInterval && isSortedIntervals l) = true := by
    rw [all_isValidInterval, (isSortedIntervals_iff l).mpr h]
    rfl
  refine contract_ok hpre ?_ ((isPairwiseDisjoint_iff _).mpr (collapse_spec h).1)
  cases l with
  | nil => rfl
  | cons first rest =>
    have hm : Mergeable [first] rest := ⟨List.pairwise_singleton _ _, (List.pairwise_cons.mp h).2, fun a ha => by
      obtain rfl : first = a := Option.some.inj ha
      exact (List.pairwise_cons.mp h).1⟩
    have hverify : verifyLoopInvariant 0 [first] = .ok () := verifyLoopInvariant_ok 0 hm.apart
    dsimp only
    rw [hverify]
    exact collapseLoop_eq rest 1 first [] hm

theorem legacyMergeIntervals_eq (l : List Interval) :
    legacyMergeIntervals (l.map toPair) = some ((collapse l).map toPair) := by
  cases l with
  | nil => rfl
  | cons first rest => exact legacyLoop_eq rest first []

theorem insertionSort_sorted (l : List Interval) :
    (l.insertionSort KeyLe).Pairwise fun a b => a.start ≤ b.start := by
  have htotal : Std.Total KeyLe := ⟨fun a b => by unfold KeyLe; omega⟩
  have htrans : IsTrans Interval KeyLe := ⟨fun a b c => by unfold KeyLe; omega⟩
  refine (List.pairwise_insertionSort KeyLe l).imp fun hab => ?_
  rcases hab with hlt | ⟨heq, -⟩
  · exact le_of_lt hlt
  · exact le_of_eq heq

theorem sortIntervalsByStart_ok (l : List Interval) : sortIntervalsByStart l = .ok (l.insertionSort KeyLe) :=
  contract_ok (all_isValidInterval l) rfl ((isSortedIntervals_iff _).mpr (insertionSort_sorted l))

theorem consolidateIntervals_ok (l : List Interval) :
    consolidateIntervals l = .ok (collapse (l.insertionSort KeyLe)) := by
  have hsorted := insertionSort_sorted l
  refine contract_ok (all_isValidInterval l) ?_ ((isPairwiseDisjoint_iff _).mpr (collapse_spec hsorted).1)
  rw [sortIntervalsByStart_ok]
  exact collapseSortedIntervals_ok hsorted

/-! ## The result -/

/-- Sorted, and no two intervals overlap or touch. -/
structure Canonical (l : List Interval) : Prop where
  sorted : l.Pairwise fun a b => a.start ≤ b.start
  separate : l.Pairwise fun a b => a.end_ < b.start ∨ b.end_ < a.start

theorem canonical_iff (l : List Interval) : Canonical l ↔ Apart l := by
  constructor
  · rintro ⟨h1, h2⟩
    refine (List.Pairwise.and h1 h2).imp fun {a b} hab => hab.2.resolve_right fun hba => ?_
    exact absurd (hab.1.trans_lt b.valid) (lt_asymm hba)
  · intro h
    exact ⟨sorted_of_apart h, List.Pairwise.imp Or.inl h⟩

/-- **Consolidation** raises no error and returns the one canonical list with the same integers.  So it does
not depend on the order of the input, it changes nothing the second time, and on an input that is sorted by
start it returns what the legacy function does. -/
theorem consolidateIntervals_spec (intervals : List Interval) : ∃ result,
    consolidateIntervals intervals = .ok result ∧ Canonical result ∧
    (∀ x, Covers result x ↔ Covers intervals x) ∧
    (∀ l, Canonical l → (∀ x, Covers l x ↔ Covers intervals x) → l = result) ∧
    (∀ l, l.Perm intervals → consolidateIntervals l = .ok result) ∧
    consolidateIntervals result = .ok result ∧
    (isSortedIntervals intervals = true →
      legacyMergeIntervals (intervals.map toPair) = some (result.map toPair)) := by
  -- what consolidation returns is canonical with the same coverage
  have hspec : ∀ l : List Interval, Apart (collapse (l.insertionSort KeyLe)) ∧
      ∀ x, Covers (collapse (l.insertionSort KeyLe)) x ↔ Covers l x := by
    intro l
    obtain ⟨h1, h2⟩ := collapse_spec (insertionSort_sorted l)
    exact ⟨h1, fun x => (h2 x).trans (covers_congr fun _ => (List.perm_insertionSort KeyLe l).mem_iff)⟩
  obtain ⟨hapart, hcovers⟩ := hspec intervals
  refine ⟨collapse (intervals.insertionSort KeyLe), consolidateIntervals_ok intervals, (canonical_iff _).mpr hapart,
    hcovers, fun l hl hc => ?_, fun l hp => ?_, ?_, fun hs => ?_⟩
  · exact ((canonical_iff l).mp hl).ext hapart fun x => (hc x).trans (hcovers x).symm
  · obtain ⟨h1, h2⟩ := hspec l
    rw [consolidateIntervals_ok, h1.ext hapart fun x => (h2 x).trans
      ((covers_congr fun _ => hp.mem_iff).trans (hcovers x).symm)]
  · obtain ⟨h1, h2⟩ := hspec (collapse (intervals.insertionSort KeyLe))
    rw [consolidateIntervals_ok, h1.ext hapart h2]
  · obtain ⟨h1, h2⟩ := collapse_spec ((isSortedIntervals_iff _).mp hs)
    rw [legacyMergeIntervals_eq, h1.ext hapart fun x => (h2 x).trans (hcovers x).symm]

/-- Touching, overlapping and separate intervals in no order. -/
example : consolidateIntervals [⟨15, 18, by decide⟩, ⟨1, 4, by decide⟩, ⟨2, 6, by decide⟩, ⟨8, 10, by decide⟩,
    ⟨10, 12, by decide⟩] = .ok [⟨1, 6, by decide⟩, ⟨8, 12, by decide⟩, ⟨15, 18, by decide⟩] := by decide

end Csapp.Hoare
