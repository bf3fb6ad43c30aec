import Csapp.Lsm.Run
import Mathlib.Algebra.Ring.Nat

/-!
# Lsm.Db — the database of `db.go` over the memtable and the log

A `LevelDb` has the skip list and the contents of `logs/leveldb.log`, to which `wal.Write` appends; file
operations succeed.  `none` is a panic, as in the skip list; an error that the source returns is a value
of `Except`.  The field `memtableSizeCounter` is never read and is left out.
-/

namespace Csapp.Lsm

open Csapp.Lib SkipList

/-! ## The log -/

/-- `wal.OpPut`. -/
abbrev opPut : Byte := ⟨0x01, by decide⟩

/-- `wal.OpDelete`. -/
abbrev opDelete : Byte := ⟨0x02, by decide⟩

/-- The cast to a byte. -/
def toByte (n : ℕ) : Byte := ⟨n % 256, Nat.mod_lt n (by decide)⟩

/-- `encodeUint32`, big endian; the argument is reduced modulo `2 ^ 32` by the cast to `uint32`. -/
def encodeUint32 (n : ℕ) : Bytes :=
  [toByte (n / 2 ^ 24), toByte (n / 2 ^ 16), toByte (n / 2 ^ 8), toByte n]

/-- The bytes that one `Write` appends. -/
def walRecord (op : Byte) (key value : Bytes) : Bytes :=
  [op] ++ encodeUint32 key.length ++ (if op = opPut then encodeUint32 value.length else []) ++ key ++
    (if op = opPut then value else [])

structure LevelDb where
  entries : SkipList
  wal : Bytes

def LevelDb.write (ldb : LevelDb) (op : Byte) (key value : Bytes) : LevelDb :=
  { ldb with wal := ldb.wal ++ walRecord op key value }

/-! ## The operations -/

/-- `NewLevelDb` on a log with contents `log`; `none` for a key or a value is `nil`. -/
def newLevelDb (log : Bytes) (key val : Option Bytes) (level : ℕ) : Option LevelDb :=
  let ldb : LevelDb := ⟨newSkipList, log⟩
  match key, val with
  | some key, some val => do
    let ldb := ldb.write opPut key val
    let entries ← ldb.entries.insert key val level
    return { ldb with entries := entries }
  | _, _ => some ldb

def LevelDb.get (ldb : LevelDb) (key : Bytes) : Option (Except GoError Bytes) := do
  let node ← ldb.entries.search key
  match node with
  | none => return .error ⟨"Key not found", []⟩
  | some x =>
    let node ← ldb.entries.nodes[x]?
    return .ok node.value

/-- `Has`, whose error is always `nil`. -/
def LevelDb.has (ldb : LevelDb) (key : Bytes) : Option Bool := do
  let node ← ldb.entries.search key
  return node.isSome

def LevelDb.put (ldb : LevelDb) (key value : Bytes) (level : ℕ) : Option (Except GoError Unit × LevelDb) := do
  let ldb := ldb.write opPut key value
  let entries ← ldb.entries.insert key value level
  return (.ok (), { ldb with entries := entries })

def LevelDb.delete (ldb : LevelDb) (key : Bytes) : Option (Except GoError Unit × LevelDb) := do
  let ldb := ldb.write opDelete key []
  let (err, entries) ← ldb.entries.delete key
  return (err, { ldb with entries := entries })

/-! ## What they do to the pairs -/

section Specs

variable {ldb : LevelDb} {xs : List ℕ}

/-- The pairs of the memtable, in key order. -/
def LevelDb.pairs (ldb : LevelDb) : List (Bytes × Bytes) := ldb.entries.entries

/-- The memtable satisfies its invariant. -/
def LevelDb.Ok (ldb : LevelDb) : Prop := ∃ xs, ldb.entries.Inv xs

theorem LevelDb.Ok.sorted (h : ldb.Ok) : SortedBy Prod.fst ldb.pairs := by
  obtain ⟨xs, h⟩ := h
  rw [LevelDb.pairs, h.entries_eq]
  exact List.pairwise_map.mpr h.sorted

/-- The search of a database is the lower bound of the multimap. -/
theorem SkipList.Inv.search_pair {sl : SkipList} (h : sl.Inv xs) (key : Bytes) : ∃ node, sl.search key = some node ∧
    node.map (fun x => (sl.keyOf x, sl.valueOf x)) = searchEntry key sl.entries ∧
      ∀ x, node = some x → ∃ n, sl.nodes[x]? = some n ∧ n.value = sl.valueOf x := by
  refine ⟨_, h.search_spec key, ?_, fun x hx => ?_⟩
  · rw [searchEntry, h.entries_eq, atLeast_pairs, List.head?_map]
  · obtain ⟨-, -, n, h1, -, h2⟩ := h.node_of_head hx
    exact ⟨n, h1, h2⟩

/-- `Get` returns the value of the lower bound. -/
theorem LevelDb.Ok.get_spec (h : ldb.Ok) (key : Bytes) : ldb.get key = some (match searchEntry key ldb.pairs with
    | none => .error ⟨"Key not found", []⟩
    | some e => .ok e.2) := by
  obtain ⟨xs, h⟩ := h
  obtain ⟨node, h1, h2, h3⟩ := h.search_pair key
  rw [LevelDb.pairs, ← h2]
  cases node with
  | none => simp [LevelDb.get, h1]
  | some x =>
    obtain ⟨n, h4, h5⟩ := h3 x rfl
    simp [LevelDb.get, h1, h4, h5]

theorem LevelDb.Ok.has_spec (h : ldb.Ok) (key : Bytes) : ldb.has key = some (searchEntry key ldb.pairs).isSome := by
  obtain ⟨xs, h⟩ := h
  obtain ⟨node, h1, h2, -⟩ := h.search_pair key
  rw [LevelDb.pairs, ← h2]
  simp [LevelDb.has, h1]

theorem LevelDb.Ok.put_spec (h : ldb.Ok) (key value : Bytes) {level : ℕ} (hl : LevelOk level) :
    ∃ ldb', ldb.put key value level = some (.ok (), ldb') ∧ ldb'.Ok ∧
      ldb'.pairs = insertEntry key value ldb.pairs := by
  obtain ⟨xs, h⟩ := h
  obtain ⟨sl', xs', h1, h2, h3⟩ := h.insert_spec key value hl.1 hl.2
  refine ⟨{ ldb.write opPut key value with entries := sl' }, ?_, ⟨xs', h2⟩, h3⟩
  simp [LevelDb.put, LevelDb.write, h1]

theorem LevelDb.Ok.delete_spec (h : ldb.Ok) (key : Bytes) : ∃ r ldb', ldb.delete key = some (r, ldb') ∧ ldb'.Ok ∧
    (r, ldb'.pairs) = deleted key ldb.pairs := by
  obtain ⟨xs, h⟩ := h
  obtain ⟨r, sl', xs', h1, h2, h3⟩ := h.delete_spec key
  refine ⟨r, { ldb.write opDelete key [] with entries := sl' }, ?_, ⟨xs', h2⟩, h3⟩
  simp [LevelDb.delete, LevelDb.write, h1]

end Specs

end Csapp.Lsm
