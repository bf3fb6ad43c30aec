import Csapp.Store.InMemory

/-!
# Store.SliceScan — `RangeScan` of the slice store

`RangeScan` searches both keys and slices the entries between the two positions.  It does not compare them:
where both keys are stored, the first one behind the second one and another key between the two, the slice
expression panics.  The linked-list store answers a reversed range with an error.
-/

namespace Csapp.InMemory

open Csapp.Lib
open Csapp.Lsm (Bytes)

variable (s : Slices Entry Bytes)

/-- The bound of the slice is a position that was found, so that its capacity does not matter. -/
def LevelDb.rangeScan (ldb : LevelDb) (start end_ : Bytes) : Option (Except String Iter) :=
  let (idxStart, foundStart) := s.binarySearchFunc ldb.entries start compareKey
  let (idxEnd, foundEnd) := s.binarySearchFunc ldb.entries end_ compareKey
  if !foundStart || !foundEnd then
    some (.error "One or both of the provided range keys could not be found")
  else if idxStart ≤ idxEnd + 1 ∧ idxEnd + 1 ≤ ldb.entries.length then
    let rangeSlice := (ldb.entries.take (idxEnd + 1)).drop idxStart
    some (.ok (rangeSlice.foldl
      (fun it entry => { it with tuples := it.tuples ++ [⟨entry.key, entry.value⟩] }) newIter))
  else none

/-- The scan fails with an error, or its iterator yields the pairs of `m` with a key between the bounds, in
ascending order. -/
def Scans (ldb : LevelDb) (m : Bytes → Option Bytes) (start end_ : Bytes) : Prop :=
  ∃ res, ldb.rangeScan s start end_ = some res ∧ ∀ it, res = .ok it →
    ∃ ps : List (Bytes × Bytes), (∀ fuel, ldb.entries.length < fuel → it.drain fuel = some ps) ∧
      StrictBy Prod.fst ps ∧
      ∀ key value, (key, value) ∈ ps ↔ m key = some value ∧ start ≤ key ∧ key ≤ end_

/-- Both bounds are keys of `m`, and between them, the wrong way round, there is another one. -/
def Reversed (m : Bytes → Option Bytes) (start end_ : Bytes) : Prop :=
  (m start).isSome ∧ (m end_).isSome ∧ ∃ key, (m key).isSome ∧ end_ < key ∧ key < start

section Scan

variable {s} {ldb : LevelDb} {m : Bytes → Option Bytes} {start end_ key : Bytes}

/-- What a search finds, as a position. -/
theorem search_position (h : Represents ldb.pairs m) (key : Bytes) :
    (∃ idx entry, s.binarySearchFunc ldb.entries key compareKey = (idx, true) ∧
        ldb.entries[idx]? = some entry ∧ entry.key = key ∧ (m key).isSome) ∨
      ∃ idx, s.binarySearchFunc ldb.entries key compareKey = (idx, false) ∧ ¬ (m key).isSome := by
  rcases search_cases (s := s) (strict_pairs.mp h.strict) key with
    ⟨as, entry, r, h1, h2, h3, -, -, h4⟩ | ⟨idx, h3, h4⟩
  · refine Or.inl ⟨as.length, entry, h4, ?_, h2, ?_⟩
    · rw [h1, List.getElem?_append_right (Nat.le_refl _), Nat.sub_self]
      rfl
    · rw [← h.lookup, h3, Option.isSome_some]
  · refine Or.inr ⟨idx, h4, ?_⟩
    rw [← h.lookup, h3]
    exact Bool.false_ne_true

/-- The pairs of the map are those of the entries. -/
theorem exists_position (h : Represents ldb.pairs m) (key value : Bytes) :
    m key = some value ↔ ∃ i : ℕ, ldb.entries[i]? = some ⟨key, value⟩ := by
  rw [← h.mem_iff, LevelDb.pairs, List.mem_map, ← List.mem_iff_getElem?]
  refine ⟨?_, fun hmem => ⟨_, hmem, rfl⟩⟩
  rintro ⟨entry, hentry, hpair⟩
  obtain ⟨rfl, rfl⟩ := Prod.mk.inj hpair
  exact hentry

variable {i j : ℕ} {first last : Entry}

/-- A range is reversed if and only if there is a position between those of its bounds. -/
theorem reversed_iff (h : Represents ldb.pairs m) (hi : ldb.entries[i]? = some first)
    (hj : ldb.entries[j]? = some last) : Reversed m first.key last.key ↔ j + 1 < i := by
  have hstrict := strict_pairs.mp h.strict
  constructor
  · rintro ⟨-, -, key, hkey, hlast, hfirst⟩
    obtain ⟨value, hvalue⟩ := Option.isSome_iff_exists.mp hkey
    obtain ⟨k, hk⟩ := (exists_position h _ _).mp hvalue
    have hjk := (hstrict.lt_iff hj hk).mp hlast
    have hki := (hstrict.lt_iff hk hi).mp hfirst
    omega
  · intro hlt
    obtain ⟨hlen, -⟩ := List.getElem?_eq_some_iff.mp hi
    have hk : ldb.entries[j + 1]? = some ldb.entries[j + 1] := List.getElem?_eq_getElem (by omega)
    have hstored : ∀ {k : ℕ} {entry : Entry}, ldb.entries[k]? = some entry → (m entry.key).isSome := by
      intro k entry hentry
      rw [(exists_position h _ entry.value).mpr ⟨k, hentry⟩, Option.isSome_some]
    exact ⟨hstored hi, hstored hj, _, hstored hk, (hstrict.lt_iff hj hk).mpr (Nat.lt_succ_self j),
      (hstrict.lt_iff hk hi).mpr hlt⟩

/-- The entries between two positions are those with a key between the two keys. -/
theorem mem_between (h : Represents ldb.pairs m) (hi : ldb.entries[i]? = some first)
    (hj : ldb.entries[j]? = some last) (key value : Bytes) :
    (key, value) ∈ ((ldb.entries.take (j + 1)).drop i).map Entry.pair ↔
      m key = some value ∧ first.key ≤ key ∧ key ≤ last.key := by
  have hstrict := strict_pairs.mp h.strict
  have hmem : (key, value) ∈ ((ldb.entries.take (j + 1)).drop i).map Entry.pair ↔
      ∃ k, i ≤ k ∧ k ≤ j ∧ ldb.entries[k]? = some ⟨key, value⟩ := by
    rw [List.mem_map]
    constructor
    · rintro ⟨entry, hentry, hpair⟩
      obtain ⟨rfl, rfl⟩ := Prod.mk.inj hpair
      obtain ⟨n, hn⟩ := List.mem_iff_getElem?.mp hentry
      rw [List.getElem?_drop, List.getElem?_take] at hn
      obtain ⟨hlt, hn⟩ := Option.ite_none_right_eq_some.mp hn
      exact ⟨i + n, Nat.le_add_right i n, Nat.le_of_lt_succ hlt, hn⟩
    · rintro ⟨k, hik, hkj, hk⟩
      refine ⟨⟨key, value⟩, List.mem_iff_getElem?.mpr ⟨k - i, ?_⟩, rfl⟩
      rw [List.getElem?_drop, Nat.add_sub_of_le hik, List.getElem?_take, if_pos (Nat.lt_succ_of_le hkj), hk]
  rw [hmem, exists_position h]
  constructor
  · rintro ⟨k, hik, hkj, hk⟩
    exact ⟨⟨k, hk⟩, (hstrict.le_iff hi hk).mpr hik, (hstrict.le_iff hk hj).mpr hkj⟩
  · rintro ⟨⟨k, hk⟩, hfirst, hlast⟩
    exact ⟨k, (hstrict.le_iff hi hk).mp hfirst, (hstrict.le_iff hk hj).mp hlast, hk⟩

/-- A key that is not stored is an error. -/
theorem scans_absent {foundStart foundEnd : Bool}
    (h1 : s.binarySearchFunc ldb.entries start compareKey = (i, foundStart))
    (h2 : s.binarySearchFunc ldb.entries end_ compareKey = (j, foundEnd))
    (h : foundStart = false ∨ foundEnd = false) : Scans s ldb m start end_ := by
  refine ⟨.error "One or both of the provided range keys could not be found", ?_, fun it hit => nomatch hit⟩
  have hcond : (!foundStart || !foundEnd) = true := by
    rcases h with rfl | rfl
    · rfl
    · exact Bool.or_true _
  simp only [LevelDb.rangeScan, h1, h2, hcond, if_true]

theorem scans_iff (h : Represents ldb.pairs m) (start end_ : Bytes) :
    Scans s ldb m start end_ ↔ ¬ Reversed m start end_ := by
  have hstrict := strict_pairs.mp h.strict
  rcases search_position (s := s) h start with ⟨i, first, h1, hi, rfl, -⟩ | ⟨i, h1, hstart⟩
  · rcases search_position (s := s) h end_ with ⟨j, last, h2, hj, rfl, -⟩ | ⟨j, h2, hend⟩
    · obtain ⟨hlen, -⟩ := List.getElem?_eq_some_iff.mp hj
      rw [reversed_iff h hi hj, Nat.not_lt]
      simp only [Scans, LevelDb.rangeScan, h1, h2, Bool.not_true, Bool.or_self, Bool.false_eq_true, if_false]
      by_cases hle : i ≤ j + 1
      · rw [if_pos ⟨hle, hlen⟩]
        refine iff_of_true ⟨_, rfl, fun it hit => ?_⟩ hle
        obtain rfl := Except.ok.inj hit
        have hsub : ((ldb.entries.take (j + 1)).drop i).Sublist ldb.entries :=
          (List.drop_sublist i _).trans (List.take_sublist (j + 1) _)
        refine ⟨((ldb.entries.take (j + 1)).drop i).map Entry.pair, fun fuel hf => ?_,
          strict_pairs.mpr (List.Pairwise.sublist hsub hstrict), mem_between h hi hj⟩
        rw [foldl_tuples]
        exact drain_tuples _ (Nat.lt_of_le_of_lt hsub.length_le hf)
      · rw [if_neg fun hcond => hle hcond.1]
        refine iff_of_false ?_ hle
        rintro ⟨res, hres, -⟩
        cases hres
    · exact iff_of_true (scans_absent h1 h2 (Or.inr rfl)) fun hrev => hend hrev.2.1
  · exact iff_of_true (scans_absent h1 rfl (Or.inl rfl)) fun hrev => hstart hrev.1

end Scan

/-- **The range scan**, after every sequence of calls: it fails with an error or yields the pairs of the range,
without an index out of range, if and only if the range is not reversed over another key. -/
theorem sliceScan_iff (s : Slices Entry Bytes) (calls : List Call) (start end_ : Bytes) :
    ∃ ldb, run s calls = some ldb ∧
      (Scans s ldb (abstractMap calls) start end_ ↔ ¬ Reversed (abstractMap calls) start end_) := by
  obtain ⟨ldb, h1, h2⟩ := run_represents s calls
  exact ⟨ldb, h1, scans_iff h2 start end_⟩

/-- From `"c"` to `"a"`, with `"b"` between them. -/
theorem reversed_range_panics : ¬ ∃ ldb,
    run (linearSlices Entry Bytes) [.put [97] [1], .put [98] [2], .put [99] [3]] = some ldb ∧
      Scans (linearSlices Entry Bytes) ldb
        (abstractMap [.put [97] [1], .put [98] [2], .put [99] [3]]) [99] [97] := by
  rintro ⟨ldb, hrun, res, hres, -⟩
  have hentries : run (linearSlices Entry Bytes) [.put [97] [1], .put [98] [2], .put [99] [3]] =
      some ⟨[⟨[97], [1]⟩, ⟨[98], [2]⟩, ⟨[99], [3]⟩]⟩ := by decide
  obtain rfl := Option.some.inj (hentries.symm.trans hrun)
  have hpanic : (LevelDb.rangeScan (linearSlices Entry Bytes) ⟨[⟨[97], [1]⟩, ⟨[98], [2]⟩, ⟨[99], [3]⟩]⟩
      [99] [97]).isNone := by decide
  rw [hres] at hpanic
  cases hpanic

end Csapp.InMemory
