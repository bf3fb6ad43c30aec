import Csapp.Lsm.Db

/-!
# Lsm.Map — when the database acts as a map

`latest k` is the value of the latest `Put(k)` of a history that no successful `Delete(k)` follows;
`Correct` is what a map would answer to a call, and `Clear` a condition on the stored pairs before it.
`Search` returns a lower bound and `Insert` does not replace, so a call is answered as a map would answer
it exactly when it is clear: a `Get` or a `Has` of an absent key must not have a larger key stored, and a
`Delete` must find no second pair with its key.  `map_iff` says so for whole runs.
-/

namespace Csapp.Lsm

open Csapp.Lib

/-! ## Calls and histories -/

/-- A call, with the level that is drawn for a new node. -/
inductive Call
  | get (key : Bytes)
  | has (key : Bytes)
  | put (key value : Bytes) (level : ℕ)
  | delete (key : Bytes)

inductive Reply
  | value (res : Except GoError Bytes)
  | flag (b : Bool)
  | status (res : Except GoError Unit)

def Call.LevelOk : Call → Prop
  | .put _ _ level => Lsm.LevelOk level
  | _ => True

def LevelDb.call (ldb : LevelDb) : Call → Option (Reply × LevelDb)
  | .get key => (ldb.get key).map fun res => (.value res, ldb)
  | .has key => (ldb.has key).map fun b => (.flag b, ldb)
  | .put key value level => (ldb.put key value level).map fun p => (.status p.1, p.2)
  | .delete key => (ldb.delete key).map fun p => (.status p.1, p.2)

/-- A database with the calls made so far and their replies, the latest first. -/
structure World where
  db : LevelDb
  history : List (Call × Reply)

/-- What `NewLevelDb(key, val)` has put already. -/
def opened : Option Bytes → Option Bytes → ℕ → List (Call × Reply)
  | some key, some val, level => [(.put key val level, .status (.ok ()))]
  | _, _, _ => []

/-- Any calls on a new database; the log may have any contents. -/
def levelDbSystem : System World Call Reply where
  init w := ∃ log key val level, LevelOk level ∧ newLevelDb log key val level = some w.db ∧
    w.history = opened key val level
  legal _ c := c.LevelOk
  exec w c := (w.db.call c).map fun p => (p.1, ⟨p.2, (c, p.1) :: w.history⟩)

/-- The value of the latest `Put(k)` that no successful `Delete(k)` follows. -/
def latest (k : Bytes) : List (Call × Reply) → Option Bytes
  | [] => none
  | (.put key value _, _) :: h => if k = key then some value else latest k h
  | (.delete key, .status (.ok _)) :: h => if k = key then none else latest k h
  | _ :: h => latest k h

/-- The keys that are stored. -/
def LevelDb.keys (ldb : LevelDb) : List Bytes := ldb.pairs.map Prod.fst

/-- What a map answers.  `Get` has the latest value or an error, and `Has` agrees with the map and with
what `Get` does in this state; after a `Delete` that succeeds the key is not stored. -/
def Correct (w : World) (c : Call) (r : Reply) (w' : World) : Prop :=
  match c, r with
  | .get k, .value res => res.toOption = latest k w.history
  | .has k, .flag b => b = (latest k w.history).isSome ∧ (w.db.get k).map Except.isOk = some b
  | .put _ _ _, .status res => res.isOk = true
  | .delete k, .status res =>
    res.isOk = (latest k w.history).isSome ∧ (res.isOk = true → k ∉ w'.db.keys)
  | _, _ => False

/-- The condition on the state before the call. -/
def Clear (w : World) : Call → Prop
  | .get k => k ∈ w.db.keys ∨ ∀ k' ∈ w.db.keys, k' < k
  | .has k => k ∈ w.db.keys ∨ ∀ k' ∈ w.db.keys, k' < k
  | .put _ _ _ => True
  | .delete k => w.db.keys.count k ≤ 1

/-! ## One call -/

/-- The stored pairs represent the history. -/
structure Rep (w : World) : Prop where
  ok : w.db.Ok
  lookup : ∀ k, w.db.pairs.lookup k = latest k w.history

section Step

variable {w : World} {k v : Bytes}

/-- The three kinds of lower bound, for the map that the history describes. -/
theorem Rep.search_cases (h : Rep w) (k : Bytes) :
    (searchEntry k w.db.pairs = none ∧ latest k w.history = none ∧ Clear w (.get k)) ∨
      (∃ v, searchEntry k w.db.pairs = some (k, v) ∧ latest k w.history = some v ∧ Clear w (.get k)) ∨
      ∃ e, searchEntry k w.db.pairs = some e ∧ latest k w.history = none ∧ ¬ Clear w (.get k) := by
  rw [← h.lookup]
  rcases h.ok.sorted.searchEntry_cases k with ⟨h1, h2, h3⟩ | ⟨v, h1, h2, h3⟩ | ⟨e, h1, h2, h3, k', h4, h5⟩
  · exact Or.inl ⟨h1, h2, Or.inr h3⟩
  · exact Or.inr (Or.inl ⟨v, h1, h2, Or.inl h3⟩)
  · exact Or.inr (Or.inr ⟨e, h1, h2, not_or.mpr ⟨h3, fun hall => h5 (hall k' h4)⟩⟩)

/-- A call runs, with the history extended. -/
theorem exec_eq {c : Call} {r : Reply} {db' : LevelDb} (h : w.db.call c = some (r, db')) :
    levelDbSystem.exec w c = some (r, ⟨db', (c, r) :: w.history⟩) := by
  simp only [levelDbSystem, h, Option.map_some]

theorem Rep.get_step (h : Rep w) (k : Bytes) : ∃ r w', levelDbSystem.exec w (.get k) = some (r, w') ∧
    (Correct w (.get k) r w' ↔ Clear w (.get k)) ∧ Rep w' := by
  have hg := h.ok.get_spec k
  refine ⟨_, _, exec_eq (by rw [LevelDb.call, hg]; rfl), ?_, h.ok, h.lookup⟩
  unfold Correct
  rcases h.search_cases k with ⟨h1, h2, h3⟩ | ⟨v, h1, h2, h3⟩ | ⟨e, h1, h2, h3⟩ <;>
    simp [h1, h2, h3, Except.toOption]

theorem Rep.has_step (h : Rep w) (k : Bytes) : ∃ r w', levelDbSystem.exec w (.has k) = some (r, w') ∧
    (Correct w (.has k) r w' ↔ Clear w (.has k)) ∧ Rep w' := by
  have hh := h.ok.has_spec k
  have hg := h.ok.get_spec k
  refine ⟨_, _, exec_eq (by rw [LevelDb.call, hh]; rfl), ?_, h.ok, h.lookup⟩
  show Correct w (.has k) _ _ ↔ Clear w (.get k)
  simp only [Correct, hg]
  rcases h.search_cases k with ⟨h1, h2, h3⟩ | ⟨v, h1, h2, h3⟩ | ⟨e, h1, h2, h3⟩ <;>
    simp [h1, h2, h3, Except.isOk, Except.toBool]

theorem Rep.put_step (h : Rep w) (k v : Bytes) {level : ℕ} (hl : LevelOk level) :
    ∃ r w', levelDbSystem.exec w (.put k v level) = some (r, w') ∧ Correct w (.put k v level) r w' ∧
      Rep w' := by
  obtain ⟨db', h1, h2, h3⟩ := h.ok.put_spec k v hl
  refine ⟨.status (.ok ()), _, exec_eq (by rw [LevelDb.call, h1]; rfl), rfl, h2, fun k' => ?_⟩
  show db'.pairs.lookup k' = if k' = k then some v else latest k' w.history
  rw [h3, lookup_insertEntry, h.lookup]
  congr

/-- A `Delete` that finds the key. -/
theorem Rep.delete_found (h : Rep w) {db' : LevelDb} (hok : db'.Ok)
    (hd : deleteEntry k w.db.pairs = some db'.pairs) (hl : latest k w.history ≠ none) :
    let w' : World := ⟨db', (.delete k, .status (.ok ())) :: w.history⟩
    (Correct w (.delete k) (.status (.ok ())) w' ↔ Clear w (.delete k)) ∧
      (Clear w (.delete k) → Rep w') := by
  intro w'
  refine ⟨?_, fun hc => ⟨hok, fun k' => ?_⟩⟩
  · have hsome : (latest k w.history).isSome = true := Option.isSome_iff_ne_none.mpr hl
    show (true = (latest k w.history).isSome ∧ (true = true → k ∉ db'.keys)) ↔ _
    rw [hsome]
    simp only [forall_const, true_and]
    exact notMem_of_deleteEntry hd
  · show db'.pairs.lookup k' = if k' = k then none else latest k' w.history
    rw [lookup_deleteEntry hd hc, h.lookup]
    congr

/-- A `Delete` that does not. -/
theorem Rep.delete_missing (h : Rep w) {db' : LevelDb} {err : GoError} (hok : db'.Ok)
    (hp : db'.pairs = w.db.pairs) (hl : latest k w.history = none) :
    let w' : World := ⟨db', (.delete k, .status (.error err)) :: w.history⟩
    Correct w (.delete k) (.status (.error err)) w' ∧ Clear w (.delete k) ∧ Rep w' := by
  intro w'
  refine ⟨by simp [Correct, hl, Except.isOk, Except.toBool], ?_, hok, fun k' => ?_⟩
  · show (w.db.pairs.map Prod.fst).count k ≤ 1
    rw [List.count_eq_zero_of_not_mem (lookup_eq_none.mp (by rw [h.lookup, hl]))]
    exact Nat.zero_le 1
  · show db'.pairs.lookup k' = latest k' w.history
    rw [hp, h.lookup]

theorem Rep.delete_step (h : Rep w) (k : Bytes) :
    ∃ r w', levelDbSystem.exec w (.delete k) = some (r, w') ∧
      (Correct w (.delete k) r w' ↔ Clear w (.delete k)) ∧ (Clear w (.delete k) → Rep w') := by
  obtain ⟨r, db', h1, h2, h3⟩ := h.ok.delete_spec k
  have hnone := h.ok.sorted.deleteEntry_eq_none (k := k)
  rw [h.lookup] at hnone
  unfold SkipList.deleted at h3
  refine ⟨.status r, _, exec_eq (by rw [LevelDb.call, h1]; rfl), ?_⟩
  cases hd : deleteEntry k w.db.pairs with
  | none =>
    rw [hd] at h3
    obtain ⟨rfl, hp⟩ := Prod.mk.inj h3
    obtain ⟨h4, h5, h6⟩ := h.delete_missing h2 hp (hnone.mp hd)
    exact ⟨iff_of_true h4 h5, fun _ => h6⟩
  | some es =>
    rw [hd] at h3
    obtain ⟨rfl, rfl⟩ := Prod.mk.inj h3
    exact h.delete_found h2 hd fun hl => by rw [hnone.mpr hl] at hd; cases hd

/-- **One call**: it returns, and is answered as by a map exactly when it is clear; the stored pairs then
still represent the history. -/
theorem Rep.step (h : Rep w) {c : Call} (hl : c.LevelOk) :
    ∃ r w', levelDbSystem.exec w c = some (r, w') ∧ (Correct w c r w' ↔ Clear w c) ∧
      (Clear w c → Rep w') := by
  cases c with
  | get k =>
    obtain ⟨r, w', h1, h2, h3⟩ := h.get_step k
    exact ⟨r, w', h1, h2, fun _ => h3⟩
  | has k =>
    obtain ⟨r, w', h1, h2, h3⟩ := h.has_step k
    exact ⟨r, w', h1, h2, fun _ => h3⟩
  | put k v level =>
    obtain ⟨r, w', h1, h2, h3⟩ := h.put_step k v hl
    exact ⟨r, w', h1, iff_of_true h2 trivial, fun _ => h3⟩
  | delete k => exact h.delete_step k

theorem Rep.exec_iff (h : Rep w) {c : Call} (hl : c.LevelOk) {r : Reply} {w' : World}
    (he : levelDbSystem.exec w c = some (r, w')) : (Correct w c r w' ↔ Clear w c) ∧ (Clear w c → Rep w') := by
  obtain ⟨r', w'', he', hiff, hrep⟩ := h.step hl
  rw [he'] at he
  obtain ⟨rfl, rfl⟩ := Prod.mk.inj (Option.some.inj he)
  exact ⟨hiff, hrep⟩

theorem Rep.empty (log : Bytes) : Rep ⟨⟨newSkipList, log⟩, []⟩ := by
  refine ⟨⟨[], newSkipList_inv⟩, fun k => ?_⟩
  show newSkipList.entries.lookup k = none
  rw [newSkipList_inv.entries_eq]
  rfl

/-- A new database, with or without a first pair. -/
theorem Rep.init (h : levelDbSystem.init w) : Rep w := by
  obtain ⟨log, key, val, level, hl, h1, h2⟩ := h
  obtain ⟨db, hist⟩ := w
  dsimp only at h1 h2
  subst h2
  match key, val with
  | some key, some val =>
    obtain ⟨r, w', h3, -, h4⟩ := (Rep.empty log).put_step key val hl
    have hnew : levelDbSystem.exec ⟨⟨newSkipList, log⟩, []⟩ (.put key val level) =
        some (.status (.ok ()), ⟨db, opened (some key) (some val) level⟩) := by
      refine exec_eq ?_
      simp only [newLevelDb, Option.bind_eq_bind, Option.bind_eq_some_iff] at h1
      obtain ⟨sl, h5, h6⟩ := h1
      simp only [LevelDb.call, LevelDb.put, h5]
      rw [← Option.some.inj h6]
      rfl
    rw [hnew] at h3
    obtain ⟨-, rfl⟩ := Prod.mk.inj (Option.some.inj h3)
    exact h4
  | some key, none =>
    obtain rfl : _ = db := Option.some.inj h1
    exact Rep.empty log
  | none, _ =>
    obtain rfl : _ = db := Option.some.inj h1
    exact Rep.empty log

end Step

/-! ## Runs -/

/-- **The database is a map** in exactly the runs whose calls are all clear: from a new database, for any
sequence of calls and any levels, every call is answered as a map would answer it iff every call is clear
in the state that it finds. -/
theorem map_iff (w : World) (hw : levelDbSystem.init w) (calls : List Call)
    (hl : ∀ c ∈ calls, c.LevelOk) :
    levelDbSystem.Along Correct w calls ↔ levelDbSystem.Along (fun w c _ _ => Clear w c) w calls :=
  System.along_iff (fun _ _ _ _ h hc he => h.exec_iff hc he) calls w (Rep.init hw) hl

/-- An empty database on an empty log. -/
def sampleWorld : World := ⟨⟨newSkipList, []⟩, []⟩

theorem sampleWorld_init : levelDbSystem.init sampleWorld :=
  ⟨[], none, none, 1, by decide, rfl, rfl⟩

/-- `Put("b", 1)`, `Get("b")`, `Delete("b")`, `Has("b")`. -/
theorem map_iff_sample : levelDbSystem.Along Correct sampleWorld
    [.put [98] [1] 2, .get [98], .delete [98], .has [98]] := by
  refine (map_iff sampleWorld sampleWorld_init _ ?_).mpr ⟨trivial, Or.inl ?_, ?_, Or.inr ?_, trivial⟩
  · simp [Call.LevelOk, LevelOk, MaxLevel]
  · show [98] ∈ ([[98]] : List Bytes)
    decide
  · show ([[98]] : List Bytes).count [98] ≤ 1
    decide
  · show ∀ k ∈ ([] : List Bytes), k < [98]
    simp

/-- After `Put("b", 1)`, `Get("a")` returns 1; after two `Put("b")`, a `Delete("b")` leaves `"b"` stored. -/
theorem not_map_sample :
    ¬ levelDbSystem.Along Correct sampleWorld [.put [98] [1] 1, .get [97]] ∧
      ¬ levelDbSystem.Along Correct sampleWorld
        [.put [98] [1] 1, .put [98] [2] 1, .delete [98]] := by
  constructor
  · intro h
    have h' : (some [1] : Option Bytes) = none := h.2.1
    exact absurd h' (by decide)
  · intro h
    have h' : [98] ∉ ([[98]] : List Bytes) := h.2.2.1.2 rfl
    exact absurd h' (by decide)

end Csapp.Lsm
