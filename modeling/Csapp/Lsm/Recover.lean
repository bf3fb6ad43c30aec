import Csapp.Lsm.Wal

/-!
# Lsm.Recover — what a restart brings back

`RecoverFromWAL` replays a file through `Put` and `Delete`, which append to `logs/leveldb.log` again; the
file that it opens is `wal.go` in the working directory.  No operation writes that file, so it is the same
in every restart.  `contents rs` are the pairs that the calls `rs` leave in an empty memtable, whatever
levels are drawn; a restart leaves the contents of `wal.go` (`restarts_spec`), and so brings the pairs of
a run back exactly when these are its own (`recovered_iff`).
-/

namespace Csapp.Lsm

open Csapp.Lib SkipList

/-! ## Recovery -/

/-- A logged call, with the level of a new node drawn from `coins`; its error is ignored. -/
def LevelDb.redo (ldb : LevelDb) (coins : ℕ → Bool) : Record → Option LevelDb
  | .put key value => (ldb.put key value (ldb.entries.randomLevel coins)).map Prod.snd
  | .delete key => (ldb.delete key).map Prod.snd

/-- The next call of a run, whose `i`-th call draws from `coins i`. -/
def redoNext (coins : ℕ → ℕ → Bool) (s : LevelDb × ℕ) (r : Record) : Option (LevelDb × ℕ) :=
  (s.1.redo (coins s.2) r).map fun ldb => (ldb, s.2 + 1)

/-- The `switch` of a round. -/
def replayEntry (coins : ℕ → ℕ → Bool) (s : LevelDb × ℕ) (entry : WalEntry) : Option (LevelDb × ℕ) :=
  match entry.record with
  | none => some s
  | some r => redoNext coins s r

inductive RecoverError
  | notExist
  | read (err : IoError)

/-- `RecoverFromWAL`, where `walGo` is the file `wal.go`, if there is one. -/
def LevelDb.recoverFromWAL (ldb : LevelDb) (walGo : Option Bytes) (coins : ℕ → ℕ → Bool) :
    Option (Except RecoverError Unit × LevelDb) :=
  match walGo with
  | none => some (.error .notExist, ldb)
  | some input => do
    let (err, ldb, _) ← readLoop nextEntry (replayEntry coins) (input.length + 1) (ldb, 0) input
    match err with
    | none => return (.ok (), ldb)
    | some err => return (.error (.read err), ldb)

/-- A new process on the log: `NewLevelDb(nil, nil)` and `RecoverFromWAL`. -/
def restart (walGo : Option Bytes) (coins : ℕ → ℕ → Bool) (log : Bytes) : Option LevelDb := do
  let ldb ← newLevelDb log none none 0
  let (_, ldb) ← ldb.recoverFromWAL walGo coins
  return ldb

/-- `n + 1` restarts, each of which finds the log of the one before; the `n`-th draws from `coins n`. -/
def restarts (walGo : Option Bytes) (coins : ℕ → ℕ → ℕ → Bool) : ℕ → Bytes → Option LevelDb
  | 0, log => restart walGo (coins 0) log
  | n + 1, log => do
    let ldb ← restarts walGo coins n log
    restart walGo (coins (n + 1)) ldb.wal

/-- A run of `calls` on a database that `NewLevelDb(key, val)` opens on an empty log. -/
def runCalls (key val : Option Bytes) (coins : ℕ → ℕ → Bool) (calls : List Record) : Option LevelDb := do
  let ldb ← newLevelDb [] key val (newSkipList.randomLevel (coins 0))
  let (ldb, _) ← calls.foldlM (redoNext coins) (ldb, 1)
  return ldb

/-! ## Contents -/

/-- A call on a sorted multimap. -/
def Record.apply (es : List (Bytes × Bytes)) : Record → List (Bytes × Bytes)
  | .put key value => insertEntry key value es
  | .delete key => (deleted key es).2

/-- The pairs that calls leave in an empty memtable. -/
def contents (rs : List Record) : List (Bytes × Bytes) := rs.foldl Record.apply []

/-- The call that `NewLevelDb(key, val)` makes. -/
def openingCalls : Option Bytes → Option Bytes → List Record
  | some key, some val => [.put key val]
  | _, _ => []

/-- The complete records of `wal.go`. -/
def walGoRecords : Option Bytes → List Record
  | none => []
  | some input =>
    match readWal input with
    | none => []
    | some (_, rs) => rs

/-! ## Replay -/

section Replay

variable {ldb : LevelDb}

/-- A call acts on the pairs as on the multimap. -/
theorem LevelDb.Ok.redo_spec (h : ldb.Ok) (coins : ℕ → Bool) (r : Record) : ∃ ldb', ldb.redo coins r = some ldb' ∧
    ldb'.Ok ∧ ldb'.pairs = r.apply ldb.pairs := by
  cases r with
  | put key value =>
    obtain ⟨xs, hinv⟩ := h
    obtain ⟨ldb', h1, h2, h3⟩ := LevelDb.Ok.put_spec ⟨xs, hinv⟩ key value (randomLevel_range hinv.maxLevel_eq coins)
    exact ⟨ldb', by rw [LevelDb.redo, h1]; rfl, h2, h3⟩
  | delete key =>
    obtain ⟨r, ldb', h1, h2, h3⟩ := h.delete_spec key
    refine ⟨ldb', by rw [LevelDb.redo, h1]; rfl, h2, ?_⟩
    rw [Record.apply, ← h3]

/-- So does a whole run of them. -/
theorem LevelDb.Ok.redo_all (coins : ℕ → ℕ → Bool) : ∀ (rs : List Record) {ldb : LevelDb} (_ : ldb.Ok) (i : ℕ),
    ∃ ldb' j, rs.foldlM (redoNext coins) (ldb, i) = some (ldb', j) ∧ ldb'.Ok ∧
      ldb'.pairs = rs.foldl Record.apply ldb.pairs
  | [], ldb, h, i => ⟨ldb, i, rfl, h, rfl⟩
  | r :: rs, ldb, h, i => by
    obtain ⟨ldb₁, h1, h2, h3⟩ := h.redo_spec (coins i) r
    obtain ⟨ldb₂, j, h4, h5, h6⟩ := LevelDb.Ok.redo_all coins rs h2 (i + 1)
    refine ⟨ldb₂, j, ?_, h5, ?_⟩
    · rw [List.foldlM_cons, redoNext, h1]
      exact h4
    · rw [List.foldl_cons, ← h3, h6]

/-- Only the entries that are records of calls count. -/
theorem replayEntry_all (coins : ℕ → ℕ → Bool) : ∀ (es : List WalEntry) (s : LevelDb × ℕ),
    es.foldlM (replayEntry coins) s = (es.filterMap WalEntry.record).foldlM (redoNext coins) s
  | [], s => rfl
  | entry :: es, s => by
    cases hr : entry.record with
    | none =>
      rw [List.foldlM_cons, replayEntry, hr, List.filterMap_cons_none hr]
      exact replayEntry_all coins es s
    | some r =>
      have hstep : replayEntry coins s entry = redoNext coins s r := by rw [replayEntry, hr]
      rw [List.foldlM_cons, hstep, List.filterMap_cons_some hr, List.foldlM_cons]
      cases redoNext coins s r with
      | none => rfl
      | some s' => exact replayEntry_all coins es s'

/-- The records that the loop replays from a file. -/
theorem walGoRecords_eq (input : Bytes) : walGoRecords (some input) =
    (fetchAll nextEntry (input.length + 1) input).2.filterMap WalEntry.record := by
  rw [walGoRecords, readWal, wal_readable.readLoop_eq _ _ _ _ (Nat.lt_succ_self _), foldlM_record]
  rfl

/-- `RecoverFromWAL` replays `wal.go` over the memtable. -/
theorem LevelDb.Ok.recoverFromWAL_spec (h : ldb.Ok) (walGo : Option Bytes) (coins : ℕ → ℕ → Bool) :
    ∃ r ldb', ldb.recoverFromWAL walGo coins = some (r, ldb') ∧ ldb'.Ok ∧
      ldb'.pairs = (walGoRecords walGo).foldl Record.apply ldb.pairs := by
  cases walGo with
  | none => exact ⟨_, ldb, rfl, h, rfl⟩
  | some input =>
    obtain ⟨ldb', j, h1, h2, h3⟩ := LevelDb.Ok.redo_all coins (walGoRecords (some input)) h 0
    have hloop := wal_readable.readLoop_eq (replayEntry coins) (input.length + 1) input (ldb, 0)
      (Nat.lt_succ_self _)
    rw [replayEntry_all, ← walGoRecords_eq, h1] at hloop
    rw [LevelDb.recoverFromWAL, hloop]
    cases (fetchAll nextEntry (input.length + 1) input).1 with
    | none => exact ⟨.ok (), ldb', rfl, h2, h3⟩
    | some err => exact ⟨.error (.read err), ldb', rfl, h2, h3⟩

theorem newLevelDb_ok (log : Bytes) : LevelDb.Ok ⟨newSkipList, log⟩ := ⟨[], newSkipList_inv⟩

theorem newLevelDb_pairs (log : Bytes) : LevelDb.pairs ⟨newSkipList, log⟩ = [] := by
  rw [LevelDb.pairs, newSkipList_inv.entries_eq]
  rfl

/-- **A restart leaves the contents of `wal.go`**, whatever the log is and however often it is done. -/
theorem restarts_spec (walGo : Option Bytes) (coins : ℕ → ℕ → ℕ → Bool) : ∀ n log,
    ∃ ldb, restarts walGo coins n log = some ldb ∧ ldb.pairs = contents (walGoRecords walGo) := by
  have hone : ∀ coins log, ∃ ldb, restart walGo coins log = some ldb ∧
      ldb.pairs = contents (walGoRecords walGo) := by
    intro coins log
    obtain ⟨r, ldb, h1, -, h2⟩ := (newLevelDb_ok log).recoverFromWAL_spec walGo coins
    rw [newLevelDb_pairs] at h2
    exact ⟨ldb, by simp [restart, newLevelDb, h1], h2⟩
  intro n
  induction n with
  | zero => exact hone (coins 0)
  | succ n ih =>
    intro log
    obtain ⟨ldb, h1, -⟩ := ih log
    obtain ⟨ldb', h2, h3⟩ := hone (coins (n + 1)) ldb.wal
    exact ⟨ldb', by rw [restarts, h1]; exact h2, h3⟩

/-- A run leaves the contents of its calls. -/
theorem runCalls_spec (key val : Option Bytes) (coins : ℕ → ℕ → Bool) (calls : List Record) :
    ∃ ldb, runCalls key val coins calls = some ldb ∧ ldb.pairs = contents (openingCalls key val ++ calls) := by
  have hnew : ∃ ldb, newLevelDb [] key val (newSkipList.randomLevel (coins 0)) = some ldb ∧ ldb.Ok ∧
      ldb.pairs = contents (openingCalls key val) := by
    match key, val with
    | some key, some val =>
      obtain ⟨ldb, h1, h2, h3⟩ := (newLevelDb_ok []).redo_spec (coins 0) (.put key val)
      rw [newLevelDb_pairs] at h3
      refine ⟨ldb, ?_, h2, h3⟩
      rw [← h1]
      simp only [newLevelDb, LevelDb.redo, LevelDb.put, LevelDb.write]
      cases newSkipList.insert key val (newSkipList.randomLevel (coins 0)) <;> rfl
    | some _, none => exact ⟨_, rfl, newLevelDb_ok [], newLevelDb_pairs []⟩
    | none, _ => exact ⟨_, rfl, newLevelDb_ok [], newLevelDb_pairs []⟩
  obtain ⟨ldb, h1, h2, h3⟩ := hnew
  obtain ⟨ldb', j, h4, -, h5⟩ := LevelDb.Ok.redo_all coins calls h2 1
  refine ⟨ldb', ?_, ?_⟩
  · simp only [runCalls, h1, Option.bind_eq_bind, Option.bind_some, h4]
    rfl
  · rw [h5, h3, contents, contents, List.foldl_append]

end Replay

/-! ## Crash and recovery -/

/-- After the calls, any number of crashes and restarts brings the same pairs back. -/
def Recovered (walGo : Option Bytes) (key val : Option Bytes) (calls : List Record) (coins : ℕ → ℕ → Bool)
    (coins' : ℕ → ℕ → ℕ → Bool) : Prop :=
  ∃ ldb, runCalls key val coins calls = some ldb ∧
    ∀ n, ∃ ldb', restarts walGo coins' n ldb.wal = some ldb' ∧ ldb'.pairs = ldb.pairs

/-- **Crash recovery works exactly when the calls leave the same pairs as the records of `wal.go`**; the log
itself is never read. -/
theorem recovered_iff (walGo : Option Bytes) (key val : Option Bytes) (calls : List Record)
    (coins : ℕ → ℕ → Bool) (coins' : ℕ → ℕ → ℕ → Bool) :
    Recovered walGo key val calls coins coins' ↔
      contents (openingCalls key val ++ calls) = contents (walGoRecords walGo) := by
  obtain ⟨ldb, h1, h2⟩ := runCalls_spec key val coins calls
  constructor
  · rintro ⟨ldb₁, h3, h4⟩
    obtain rfl : ldb = ldb₁ := Option.some.inj (h1.symm.trans h3)
    obtain ⟨ldb', h5, h6⟩ := h4 0
    obtain ⟨ldb₂, h7, h8⟩ := restarts_spec walGo coins' 0 ldb.wal
    obtain rfl : ldb' = ldb₂ := Option.some.inj (h5.symm.trans h7)
    rw [← h2, ← h6, h8]
  · intro heq
    refine ⟨ldb, h1, fun n => ?_⟩
    obtain ⟨ldb', h3, h4⟩ := restarts_spec walGo coins' n ldb.wal
    exact ⟨ldb', h3, by rw [h4, h2, heq]⟩

/-- `Put("a", 1)` is lost: there is no `wal.go`. -/
theorem not_recovered_sample : ¬ Recovered none none none [.put [97] [1]] (fun _ _ => false) fun _ _ _ => false := by
  rintro ⟨ldb, h1, h2⟩
  obtain ⟨ldb', h3, h4⟩ := h2 0
  obtain ⟨ldb₁, h5, h6⟩ := runCalls_spec none none (fun _ _ => false) [.put [97] [1]]
  obtain rfl : ldb = ldb₁ := Option.some.inj (h1.symm.trans h5)
  obtain ⟨ldb₂, h7, h8⟩ := restarts_spec none (fun _ _ _ => false) 0 ldb.wal
  obtain rfl : ldb' = ldb₂ := Option.some.inj (h3.symm.trans h7)
  rw [h6, h8] at h4
  exact absurd h4 (by decide)

end Csapp.Lsm
