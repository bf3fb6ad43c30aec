import Csapp.Lib.SortedMap
import Csapp.Lsm.Chains
import Mathlib.Data.List.Sort

/-!
# Store.InMemory — the slice store of `01-in-memory-kv`

The entries are a slice that `Put` sorts again after every change.  `Slices` are the two functions of
package `slices` with what their documentation says; `SortFunc` need not be stable.  On a slice with
strictly increasing keys the binary search splits the entries at the key (`search_spec`), so that `Put`
and `Delete` are `updateEntry` and `deleteEntry`, and the store acts as a map (`simulates_map`).

* `none` is a panic: an index out of range.
* A `nil` and an empty slice are the same byte string.  The store keeps the caller's slices; they are
  taken not to change afterwards.
-/

namespace Csapp.InMemory

open Csapp.Lib
open Csapp.Lsm (Bytes bytesCompare bytesCompare_lt bytesCompare_eq bytesCompare_ge bytesCompare_gt)

/-! ## Package `slices` -/

/-- The order is a strict weak ordering, with the signs of a comparison. -/
structure WeakOrder {E : Type} (cmp : E → E → ℤ) : Prop where
  swap : ∀ a b, cmp a b < 0 ↔ 0 < cmp b a
  trans : ∀ a b c, cmp a b < 0 → cmp b c < 0 → cmp a c < 0
  negTrans : ∀ a b c, ¬ cmp a b < 0 → ¬ cmp b c < 0 → ¬ cmp a c < 0

/-- The position where `target` is found, or where it would be in the sort order, and whether it is
there. -/
structure Found {E T : Type} (x : List E) (target : T) (cmp : E → T → ℤ) (res : ℕ × Bool) : Prop where
  le : res.1 ≤ x.length
  before : ∀ e ∈ x.take res.1, cmp e target < 0
  after : ∀ e ∈ x.drop res.1, 0 ≤ cmp e target
  found : res.2 = true ↔ ∃ e, x[res.1]? = some e ∧ cmp e target = 0

/-- `slices.BinarySearchFunc` and `slices.SortFunc` as documented. -/
structure Slices (E T : Type) where
  binarySearchFunc : List E → T → (E → T → ℤ) → ℕ × Bool
  sortFunc : List E → (E → E → ℤ) → List E
  search : ∀ x target cmp, (x.Pairwise fun a b => cmp b target < 0 → cmp a target < 0) →
    Found x target cmp (binarySearchFunc x target cmp)
  sort_perm : ∀ x cmp, WeakOrder cmp → (sortFunc x cmp).Perm x
  sort_sorted : ∀ x cmp, WeakOrder cmp → (sortFunc x cmp).Pairwise fun a b => ¬ cmp b a < 0

/-- A search from the start. -/
def linearSearch {E T : Type} (target : T) (cmp : E → T → ℤ) : List E → ℕ × Bool
  | [] => (0, false)
  | e :: x =>
    if cmp e target < 0 then ((linearSearch target cmp x).1 + 1, (linearSearch target cmp x).2)
    else (0, decide (cmp e target = 0))

theorem found_linearSearch {E T : Type} {target : T} {cmp : E → T → ℤ} {x : List E}
    (hx : x.Pairwise fun a b => cmp b target < 0 → cmp a target < 0) :
    Found x target cmp (linearSearch target cmp x) := by
  induction x with
  | nil =>
    refine ⟨le_rfl, ?_, ?_, by simp [linearSearch]⟩ <;>
    · intro e he
      cases he
  | cons e x ih =>
    obtain ⟨h1, h2⟩ := List.pairwise_cons.mp hx
    unfold linearSearch
    split_ifs with he
    · obtain ⟨hle, hbefore, hafter, hfound⟩ := ih h2
      refine ⟨Nat.succ_le_succ hle, ?_, hafter, hfound⟩
      intro e' he'
      rcases List.mem_cons.mp he' with rfl | he'
      · exact he
      · exact hbefore e' he'
    · refine ⟨Nat.zero_le _, ?_, ?_, by simp⟩
      · intro e' he'
        cases he'
      · intro e' he'
        rcases List.mem_cons.mp he' with rfl | he'
        · exact not_lt.mp he
        · exact not_lt.mp fun hlt => he (h1 e' he' hlt)

/-- An instance: a search from the start, and insertion sort. -/
def linearSlices (E T : Type) : Slices E T where
  binarySearchFunc x target cmp := linearSearch target cmp x
  sortFunc x cmp := x.insertionSort fun a b => ¬ cmp b a < 0
  search _ _ _ := found_linearSearch
  sort_perm x _ _ := List.perm_insertionSort _ x
  sort_sorted x cmp h := by
    have htotal : Std.Total fun a b : E => ¬ cmp b a < 0 := by
      refine ⟨fun a b => or_iff_not_imp_left.mpr fun hab => ?_⟩
      exact not_lt.mpr (le_of_lt ((h.swap b a).mp (not_not.mp hab)))
    have htrans : IsTrans E fun a b => ¬ cmp b a < 0 := ⟨fun a b c hab hbc => h.negTrans c b a hbc hab⟩
    exact List.pairwise_insertionSort _ x

/-! ## The store -/

structure Entry where
  key : Bytes
  value : Bytes
  deriving DecidableEq

structure LevelDb where
  entries : List Entry
  deriving DecidableEq

/-- The comparison of the searches. -/
def compareKey (entry : Entry) (target : Bytes) : ℤ := bytesCompare entry.key target

/-- The comparison of the sort. -/
def compareEntries (entry1 entry2 : Entry) : ℤ := bytesCompare entry1.key entry2.key

variable (s : Slices Entry Bytes)

def LevelDb.get (ldb : LevelDb) (key : Bytes) : Option (Except String Bytes) :=
  let (idx, found) := s.binarySearchFunc ldb.entries key compareKey
  if found then ldb.entries[idx]?.map fun entry => .ok entry.value
  else some (.error "Key not found")

def LevelDb.has (ldb : LevelDb) (key : Bytes) : Bool :=
  (s.binarySearchFunc ldb.entries key compareKey).2

def LevelDb.put (ldb : LevelDb) (key value : Bytes) : Option (Except String Unit × LevelDb) := do
  let (idx, found) := s.binarySearchFunc ldb.entries key compareKey
  let newEntry : Entry := ⟨key, value⟩
  let entries ←
    if found then ldb.entries[idx]?.map fun entry => ldb.entries.set idx { entry with value := value }
    else some (ldb.entries ++ [newEntry])
  some (.ok (), ⟨s.sortFunc entries compareEntries⟩)

def LevelDb.delete (ldb : LevelDb) (key : Bytes) : Option (Except String Unit × LevelDb) :=
  let (idx, found) := s.binarySearchFunc ldb.entries key compareKey
  if found then
    if idx + 1 ≤ ldb.entries.length then
      some (.ok (), ⟨ldb.entries.take idx ++ ldb.entries.drop (idx + 1)⟩)
    else none
  else some (.error "Could not delete Entry. Provided key not found", ldb)

/-! ## `Dump` and its iterator -/

structure Tuple where
  key : Bytes
  value : Bytes
  deriving DecidableEq

structure Iter where
  tuples : List Tuple
  currIdx : ℤ

def newIter : Iter := ⟨[], -1⟩

def Iter.next (it : Iter) : Bool × Iter :=
  let it := if it.currIdx < it.tuples.length then { it with currIdx := it.currIdx + 1 } else it
  (decide (it.currIdx < it.tuples.length), it)

/-- `it.Tuples[it.CurrIdx]`. -/
def Iter.current (it : Iter) : Option Tuple :=
  if 0 ≤ it.currIdx then it.tuples[it.currIdx.toNat]? else none

def Iter.key (it : Iter) : Option Bytes := it.current.map Tuple.key

def Iter.value (it : Iter) : Option Bytes := it.current.map Tuple.value

def LevelDb.dump (ldb : LevelDb) : Iter :=
  ldb.entries.foldl (fun it entry => { it with tuples := it.tuples ++ [⟨entry.key, entry.value⟩] }) newIter

/-- `for it.Next()`, which reads `Key` and `Value`: the pairs read. -/
def Iter.drain : ℕ → Iter → Option (List (Bytes × Bytes))
  | 0, _ => none
  | fuel + 1, it =>
    let (more, it) := it.next
    if more then do
      let key ← it.key
      let value ← it.value
      let rest ← drain fuel it
      some ((key, value) :: rest)
    else some []

/-! ## Runs -/

abbrev Call := MapCall Bytes Bytes

def LevelDb.call (ldb : LevelDb) : Call → Option (Except String Unit × LevelDb)
  | .put key value => ldb.put s key value
  | .delete key => ldb.delete s key

/-- A sequence of calls, whatever they return. -/
def run (calls : List Call) : Option LevelDb :=
  calls.foldlM (fun ldb c => (ldb.call s c).map Prod.snd) ⟨[]⟩

/-- The map after a sequence of calls. -/
def abstractMap (calls : List Call) : Bytes → Option Bytes := calls.foldl MapCall.apply fun _ => none

/-! ## The comparisons -/

theorem weakOrder_compareEntries : WeakOrder compareEntries where
  swap _ _ := bytesCompare_lt.trans bytesCompare_gt.symm
  trans a b c hab hbc := by
    unfold compareEntries at *
    rw [bytesCompare_lt] at *
    exact hab.trans hbc
  negTrans a b c hab hbc := by
    unfold compareEntries at *
    rw [bytesCompare_lt, not_lt] at *
    exact hbc.trans hab

/-! ## The binary search -/

section Spec

variable {s : Slices Entry Bytes} {ldb : LevelDb} {key value : Bytes}

def Entry.pair (entry : Entry) : Bytes × Bytes := (entry.key, entry.value)

def LevelDb.pairs (ldb : LevelDb) : List (Bytes × Bytes) := ldb.entries.map Entry.pair

/-- On increasing keys the search splits the entries at the key. -/
theorem search_spec (h : StrictBy Entry.key ldb.entries) (key : Bytes) :
    ∃ as bs, ldb.entries = as ++ bs ∧ below Prod.fst key ldb.pairs = as.map Entry.pair ∧
      atLeast Prod.fst key ldb.pairs = bs.map Entry.pair ∧
      ((∃ entry r, bs = entry :: r ∧ entry.key = key ∧
          s.binarySearchFunc ldb.entries key compareKey = (as.length, true)) ∨
        (∀ entry ∈ ldb.entries, entry.key ≠ key) ∧
          s.binarySearchFunc ldb.entries key compareKey = (as.length, false)) := by
  obtain ⟨hle, hbefore, hafter, hfound⟩ := s.search ldb.entries key compareKey
    (List.Pairwise.imp (fun hab hb => by
      unfold compareKey at *
      rw [bytesCompare_lt] at *
      exact hab.trans hb) h)
  cases hres : s.binarySearchFunc ldb.entries key compareKey with
  | mk idx found =>
    rw [hres] at hle hbefore hafter hfound
    dsimp only at hle hbefore hafter hfound
    have hsplit : ldb.entries = ldb.entries.take idx ++ ldb.entries.drop idx :=
      (List.take_append_drop idx ldb.entries).symm
    have hlt : ∀ entry ∈ ldb.entries.take idx, entry.key < key := fun entry he =>
      bytesCompare_lt.mp (hbefore entry he)
    have hge : ∀ entry ∈ ldb.entries.drop idx, key ≤ entry.key := fun entry he =>
      bytesCompare_ge.mp (hafter entry he)
    obtain ⟨hb, ha⟩ := below_of_append (f := fun e : Entry => e.pair.1) hlt hge
    rw [← hsplit] at hb ha
    refine ⟨ldb.entries.take idx, ldb.entries.drop idx, hsplit, ?_, ?_, ?_⟩
    · rw [LevelDb.pairs, below_map]
      exact congrArg (List.map Entry.pair) hb
    · rw [LevelDb.pairs, atLeast_map]
      exact congrArg (List.map Entry.pair) ha
    · rw [List.length_take, Nat.min_eq_left hle]
      cases found with
      | true =>
        obtain ⟨entry, h1, h2⟩ := hfound.mp rfl
        obtain ⟨h3, h4⟩ := List.getElem?_eq_some_iff.mp h1
        refine Or.inl ⟨entry, ldb.entries.drop (idx + 1), ?_, bytesCompare_eq.mp h2, rfl⟩
        rw [List.drop_eq_getElem_cons h3, h4]
      | false =>
        refine Or.inr ⟨fun entry he hkey => ?_, rfl⟩
        rw [hsplit, List.mem_append] at he
        rcases he with he | he
        · exact absurd hkey (hlt entry he).ne
        · have hstrict := List.Pairwise.sublist (List.drop_sublist idx ldb.entries) h
          refine StrictBy.ne_of_head hstrict hge (fun entry' hhead hkey' => ?_) entry he hkey
          rw [List.getElem?_drop] at hhead
          exact Bool.false_ne_true (hfound.mpr ⟨entry', hhead, bytesCompare_eq.mpr hkey'⟩)

/-- Sorting entries with distinct keys makes the keys strictly increasing. -/
theorem strict_sortFunc {es : List Entry} (h : (es.map Entry.key).Nodup) :
    StrictBy Entry.key (s.sortFunc es compareEntries) := by
  have hperm := s.sort_perm es compareEntries weakOrder_compareEntries
  have hsorted : SortedBy Entry.key (s.sortFunc es compareEntries) :=
    (s.sort_sorted es compareEntries weakOrder_compareEntries).imp fun hab =>
      not_lt.mp fun hba => hab (bytesCompare_lt.mpr hba)
  exact hsorted.strict ((hperm.map Entry.key).nodup_iff.mpr h)

theorem strict_pairs {es : List Entry} : StrictBy Prod.fst (es.map Entry.pair) ↔ StrictBy Entry.key es :=
  List.pairwise_map

theorem map_fst_pairs (es : List Entry) : (es.map Entry.pair).map Prod.fst = es.map Entry.key := by
  rw [List.map_map]
  rfl

/-- Sorting gives the one strict arrangement of the pairs. -/
theorem pairs_sortFunc {es : List Entry} {ps : List (Bytes × Bytes)} (hps : StrictBy Prod.fst ps)
    (hperm : (es.map Entry.pair).Perm ps) : StrictBy Entry.key (s.sortFunc es compareEntries) ∧
      (s.sortFunc es compareEntries).map Entry.pair = ps := by
  have hnodup : (es.map Entry.key).Nodup := by
    rw [← map_fst_pairs]
    exact (hperm.map Prod.fst).nodup_iff.mpr hps.nodup
  have hstrict := strict_sortFunc (s := s) hnodup
  have hsort := (s.sort_perm es compareEntries weakOrder_compareEntries).map Entry.pair
  exact ⟨hstrict, (strict_pairs.mpr hstrict).eq_of_perm hps (hsort.trans hperm)⟩

/-! ## The operations -/

variable (h : StrictBy Entry.key ldb.entries)
include h

theorem search_cases (key : Bytes) :
    (∃ as entry r, ldb.entries = as ++ entry :: r ∧ entry.key = key ∧
      ldb.pairs.lookup key = some entry.value ∧ below Prod.fst key ldb.pairs = as.map Entry.pair ∧
      atLeast Prod.fst key ldb.pairs = entry.pair :: r.map Entry.pair ∧
      s.binarySearchFunc ldb.entries key compareKey = (as.length, true)) ∨
    (∃ idx, ldb.pairs.lookup key = none ∧ s.binarySearchFunc ldb.entries key compareKey = (idx, false)) := by
  obtain ⟨as, bs, h1, h2, h3, ⟨entry, r, rfl, h5, h6⟩ | ⟨h5, h6⟩⟩ := search_spec (s := s) h key
  · refine Or.inl ⟨as, entry, r, h1, h5, ?_, h2, by rw [h3, List.map_cons], h6⟩
    refine (mem_iff_lookup (strict_pairs.mpr h).nodup).mp ?_
    rw [h1, ← h5, List.map_append, List.map_cons]
    exact List.mem_append_right _ List.mem_cons_self
  · refine Or.inr ⟨as.length, lookup_eq_none.mpr ?_, h6⟩
    intro hk
    rw [LevelDb.pairs, map_fst_pairs] at hk
    obtain ⟨entry, he, hkey⟩ := List.mem_map.mp hk
    exact h5 entry he hkey

theorem get_spec (key : Bytes) : ldb.get s key = some (match ldb.pairs.lookup key with
    | some value => .ok value
    | none => .error "Key not found") := by
  unfold LevelDb.get
  rcases search_cases (s := s) h key with ⟨as, entry, r, h1, h2, h3, -, -, h6⟩ | ⟨idx, h3, h6⟩
  · rw [h6, h3, h1]
    simp
  · rw [h6, h3]
    rfl

theorem has_spec (key : Bytes) : ldb.has s key = (ldb.pairs.lookup key).isSome := by
  unfold LevelDb.has
  rcases search_cases (s := s) h key with ⟨as, entry, r, -, -, h3, -, -, h6⟩ | ⟨idx, h3, h6⟩
  · rw [h6, h3]
    rfl
  · rw [h6, h3]
    rfl

theorem put_spec (key value : Bytes) : ∃ ldb', ldb.put s key value = some (.ok (), ldb') ∧
    StrictBy Entry.key ldb'.entries ∧ ldb'.pairs = updateEntry key value ldb.pairs := by
  have hstrict := strict_updateEntry (strict_pairs.mpr h) key value
  unfold LevelDb.put
  rcases search_cases (s := s) h key with ⟨as, entry, r, h1, h2, -, h4, h5, h6⟩ | ⟨idx, h3, h6⟩
  · -- the entry is replaced, and sorting changes nothing
    have hset : ldb.entries.set as.length { entry with value := value } =
        as ++ { entry with value := value } :: r := by
      rw [h1, List.set_append_right _ _ le_rfl, Nat.sub_self, List.set_cons_zero]
    have hpairs : updateEntry key value ldb.pairs =
        (as ++ { entry with value := value } :: r).map Entry.pair := by
      unfold updateEntry
      rw [h5]
      simp only [Entry.pair, h2, if_true, h4, List.map_append, List.map_cons]
    obtain ⟨h7, h8⟩ := pairs_sortFunc (s := s) hstrict (List.Perm.of_eq hpairs.symm)
    refine ⟨⟨_⟩, ?_, h7, h8⟩
    rw [h6, ← hset]
    have hget : ldb.entries[as.length]? = some entry := by simp [h1]
    simp only [if_true, hget, Option.map_some, Option.bind_eq_bind, Option.bind_some]
  · -- the pair is appended, and sorting moves it to its place
    have hperm : ((ldb.entries ++ [Entry.mk key value]).map Entry.pair).Perm (updateEntry key value ldb.pairs) := by
      rw [List.map_append]
      exact (updateEntry_perm value (lookup_eq_none.mp h3)).symm
    obtain ⟨h7, h8⟩ := pairs_sortFunc (s := s) hstrict hperm
    refine ⟨⟨_⟩, ?_, h7, h8⟩
    rw [h6]
    simp

theorem delete_spec (key : Bytes) : (∃ ldb', ldb.delete s key = some (.ok (), ldb') ∧
      StrictBy Entry.key ldb'.entries ∧ deleteEntry key ldb.pairs = some ldb'.pairs) ∨
    ldb.delete s key = some (.error "Could not delete Entry. Provided key not found", ldb) ∧
      ldb.pairs.lookup key = none := by
  unfold LevelDb.delete
  rcases search_cases (s := s) h key with ⟨as, entry, r, h1, h2, -, h4, h5, h6⟩ | ⟨idx, h3, h6⟩
  · have hdel : deleteEntry key ldb.pairs = some ((as ++ r).map Entry.pair) := by
      unfold deleteEntry
      rw [h5]
      simp only [Entry.pair, h2, if_true, h4, List.map_append]
    refine Or.inl ⟨⟨as ++ r⟩, ?_, ?_, hdel⟩
    · rw [h6, h1]
      simp
    · rw [h1] at h
      exact List.Pairwise.sublist (List.Sublist.append_left (List.sublist_cons_self _ _) _) h
  · refine Or.inr ⟨?_, h3⟩
    rw [h6]
    rfl

end Spec

/-! ## `Dump` -/

theorem next_eq {tuples : List Tuple} {n : ℕ} (h : n ≤ tuples.length) :
    Iter.next ⟨tuples, n - 1⟩ = (decide (n < tuples.length), ⟨tuples, n⟩) := by
  have hlt : (n : ℤ) - 1 < tuples.length := by omega
  have hsucc : (n : ℤ) - 1 + 1 = n := Int.sub_add_cancel _ _
  simp only [Iter.next, if_pos hlt, hsucc, Int.ofNat_lt]

theorem current_eq (tuples : List Tuple) (n : ℕ) : Iter.current ⟨tuples, n⟩ = tuples[n]? := by
  rw [Iter.current, if_pos (Int.natCast_nonneg n), Int.toNat_natCast]

/-- The loop reads the tuples from the next one on, and stops. -/
theorem drain_eq : ∀ (fuel n : ℕ) (tuples : List Tuple), n ≤ tuples.length → tuples.length - n < fuel →
    Iter.drain fuel ⟨tuples, n - 1⟩ = some ((tuples.drop n).map fun tuple => (tuple.key, tuple.value))
  | fuel + 1, n, tuples, hn, hf => by
    rw [Iter.drain, next_eq hn]
    by_cases hlt : n < tuples.length
    · have ih := drain_eq fuel (n + 1) tuples hlt (by omega)
      rw [show ((n + 1 : ℕ) : ℤ) - 1 = n by omega] at ih
      have hget : Iter.current ⟨tuples, n⟩ = some tuples[n] := by
        rw [current_eq, List.getElem?_eq_getElem hlt]
      simp only [decide_eq_true hlt, if_true, Iter.key, Iter.value, hget, Option.map_some, Option.bind_eq_bind,
        Option.bind_some, ih]
      rw [List.drop_eq_getElem_cons hlt, List.map_cons]
    · rw [List.drop_eq_nil_of_le (not_lt.mp hlt)]
      simp [hlt]

def Entry.tuple (entry : Entry) : Tuple := ⟨entry.key, entry.value⟩

/-- The loop that fills an iterator. -/
theorem foldl_tuples : ∀ (es : List Entry) (it : Iter),
    es.foldl (fun it entry => { it with tuples := it.tuples ++ [⟨entry.key, entry.value⟩] }) it =
      ⟨it.tuples ++ es.map Entry.tuple, it.currIdx⟩
  | [], it => by rw [List.foldl_nil, List.map_nil, List.append_nil]
  | e :: es, it => by
    rw [List.foldl_cons, foldl_tuples es, List.append_assoc]
    rfl

theorem dump_eq (ldb : LevelDb) : ldb.dump = ⟨ldb.entries.map Entry.tuple, -1⟩ := foldl_tuples _ _

/-- A new iterator yields the pairs that it was filled with. -/
theorem drain_tuples (es : List Entry) {fuel : ℕ} (hf : es.length < fuel) :
    Iter.drain fuel ⟨es.map Entry.tuple, -1⟩ = some (es.map Entry.pair) := by
  have h := drain_eq fuel 0 (es.map Entry.tuple) (Nat.zero_le _) (by rwa [List.length_map, Nat.sub_zero])
  rw [List.drop_zero, List.map_map] at h
  exact h

/-- `Dump` lists the pairs. -/
theorem drain_dump (ldb : LevelDb) {fuel : ℕ} (hf : ldb.entries.length < fuel) :
    ldb.dump.drain fuel = some ldb.pairs := by
  rw [dump_eq]
  exact drain_tuples _ hf

/-! ## The store is a map -/

/-- The store answers as the map `m` does, and its entries are in order. -/
structure ActsAs (ldb : LevelDb) (m : Bytes → Option Bytes) : Prop where
  sorted : StrictBy Entry.key ldb.entries
  get : ∀ key, ldb.get s key = some (match m key with
    | some value => .ok value
    | none => .error "Key not found")
  has : ∀ key, ldb.has s key = (m key).isSome
  delete : ∀ key, ∃ res ldb', ldb.delete s key = some (res, ldb') ∧ res.isOk = (m key).isSome ∧
    (res.isOk = false → ldb' = ldb)
  dump : ∃ ps : List (Bytes × Bytes), (∀ fuel, ldb.entries.length < fuel → ldb.dump.drain fuel = some ps) ∧
    StrictBy Prod.fst ps ∧ ∀ key value, (key, value) ∈ ps ↔ m key = some value

variable {s} {ldb : LevelDb} {m : Bytes → Option Bytes}

theorem ActsAs.of_represents (h : Represents ldb.pairs m) : ActsAs s ldb m := by
  have hstrict := strict_pairs.mp h.strict
  refine ⟨hstrict, fun key => ?_, fun key => ?_, fun key => ?_, ldb.pairs, fun fuel hf => drain_dump ldb hf, h.strict,
    fun key value => h.mem_iff⟩
  · rw [← h.lookup]
    exact get_spec hstrict key
  · rw [← h.lookup]
    exact has_spec hstrict key
  · rw [← h.lookup]
    rcases delete_spec (s := s) hstrict key with ⟨ldb', h1, -, h3⟩ | ⟨h1, h2⟩
    · exact ⟨_, _, h1, (isSome_of_deleteEntry h.strict h3).symm, fun he => absurd he (by decide)⟩
    · exact ⟨_, _, h1, by rw [h2]; rfl, fun _ => rfl⟩

/-- A call does to the pairs what it does to the map. -/
theorem represents_call (h : Represents ldb.pairs m) (c : Call) :
    ∃ res ldb', ldb.call s c = some (res, ldb') ∧ Represents ldb'.pairs (c.apply m) := by
  have hstrict := strict_pairs.mp h.strict
  cases c with
  | put key value =>
    obtain ⟨ldb', h1, -, h3⟩ := put_spec (s := s) hstrict key value
    refine ⟨_, ldb', h1, ?_⟩
    rw [h3]
    exact h.put key value
  | delete key =>
    rcases delete_spec (s := s) hstrict key with ⟨ldb', h1, -, h3⟩ | ⟨h1, h2⟩
    · exact ⟨_, ldb', h1, h.delete h3⟩
    · exact ⟨_, ldb, h1, h.delete_absent h2⟩

/-- After a sequence of calls the pairs are those of the map. -/
theorem run_represents (s : Slices Entry Bytes) (calls : List Call) :
    ∃ ldb, run s calls = some ldb ∧ Represents ldb.pairs (abstractMap calls) := by
  have hrun : ∀ (calls : List Call) (ldb : LevelDb) (m : Bytes → Option Bytes), Represents ldb.pairs m →
      ∃ ldb', calls.foldlM (fun ldb c => (ldb.call s c).map Prod.snd) ldb = some ldb' ∧
        Represents ldb'.pairs (calls.foldl MapCall.apply m) := by
    intro calls
    induction calls with
    | nil =>
      intro ldb m h
      exact ⟨ldb, rfl, h⟩
    | cons c calls ih =>
      intro ldb m h
      obtain ⟨res, ldb₁, h1, h2⟩ := represents_call (s := s) h c
      obtain ⟨ldb', h3, h4⟩ := ih ldb₁ _ h2
      refine ⟨ldb', ?_, h4⟩
      rw [List.foldlM_cons, h1]
      exact h3
  exact hrun calls ⟨[]⟩ (fun _ => none) Represents.nil

/-- **After every sequence of calls the store acts as the map** that overwrites on `Put`. -/
theorem simulates_map (s : Slices Entry Bytes) (calls : List Call) :
    ∃ ldb, run s calls = some ldb ∧ ActsAs s ldb (abstractMap calls) := by
  obtain ⟨ldb, h1, h2⟩ := run_represents s calls
  exact ⟨ldb, h1, ActsAs.of_represents h2⟩

/-- A key that is put twice and another one that is deleted. -/
example : (run (linearSlices Entry Bytes) [.put [2] [1], .put [1] [], .put [2] [7], .delete [1]]) =
    some ⟨[⟨[2], [7]⟩]⟩ := by decide

end Csapp.InMemory
