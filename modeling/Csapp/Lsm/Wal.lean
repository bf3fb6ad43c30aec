import Csapp.Lib.Framing
import Csapp.Lsm.Db

/-!
# Lsm.Wal — the read loop of `RecoverFromWAL`

The loop reads an operation byte, the lengths and then the byte strings, and hands the record to `Put` or
`Delete`.  The lengths and the byte strings are read by `io.ReadFull`, which fails at the end of the
input; only the end of the input in front of an operation byte ends the loop without an error.
`wal_framing` says that this loop reads back what `wal.Write` appends.
-/

namespace Csapp.Lsm

open Csapp.Lib

/-! ## The fields of a record -/

/-- The errors of a read: `io.EOF` and `io.ErrUnexpectedEOF`. -/
inductive IoError
  | eof
  | unexpectedEof
  deriving DecidableEq

/-- `io.ReadFull` into a buffer of `n` bytes: the buffer and what is left of the input. -/
def readFull (n : ℕ) (input : Bytes) : Except IoError (Bytes × Bytes) :=
  if n ≤ input.length then .ok (input.take n, input.drop n)
  else if input = [] then .error .eof
  else .error .unexpectedEof

/-- `binary.BigEndian.Uint32`. -/
def bigEndianUint32 (buf : Bytes) : ℕ := buf.foldl (fun n b => n * 256 + b.val) 0

def readUint32 (input : Bytes) : Except IoError (ℕ × Bytes) := do
  let (buf, input) ← readFull 4 input
  .ok (bigEndianUint32 buf, input)

/-- `valueLen`, which is read for a `Put` only. -/
def readValueLen (op : Byte) (input : Bytes) : Except IoError (ℕ × Bytes) :=
  if op = opPut then readUint32 input else .ok (0, input)

/-- `value`, which is read for a `Put` only. -/
def readValue (op : Byte) (valueLen : ℕ) (input : Bytes) : Except IoError (Bytes × Bytes) :=
  if op = opPut then readFull valueLen input else .ok ([], input)

/-- The variables of a round when it comes to the `switch`. -/
structure WalEntry where
  op : Byte
  key : Bytes
  value : Bytes

/-- The round after its operation byte. -/
def readFields (op : Byte) (input : Bytes) : Except IoError (WalEntry × Bytes) := do
  let (keyLen, input) ← readUint32 input
  let (valueLen, input) ← readValueLen op input
  let (key, input) ← readFull keyLen input
  let (value, input) ← readValue op valueLen input
  .ok (⟨op, key, value⟩, input)

/-- One round of the loop. -/
def nextEntry : Bytes → Fetched Byte IoError WalEntry
  | [] => .stop
  | op :: input =>
    match readFields op input with
    | .error err => .fail err
    | .ok (entry, rest) => .record entry rest

/-! ## Records -/

/-- A call that is logged. -/
inductive Record
  | put (key value : Bytes)
  | delete (key : Bytes)
  deriving DecidableEq

/-- The `switch` of the loop; other operations are read and skipped. -/
def WalEntry.record (entry : WalEntry) : Option Record :=
  if entry.op = opPut then some (.put entry.key entry.value)
  else if entry.op = opDelete then some (.delete entry.key)
  else none

/-- The arguments of `wal.Write`. -/
def Record.entry : Record → WalEntry
  | .put key value => ⟨opPut, key, value⟩
  | .delete key => ⟨opDelete, key, []⟩

def WalEntry.bytes (entry : WalEntry) : Bytes := walRecord entry.op entry.key entry.value

/-- The bytes that `wal.Write` appends for `rs`. -/
def walBytes (rs : List Record) : Bytes := rs.flatMap fun r => r.entry.bytes

/-- The read loop, which collects its records: the error, if any, and the records.  Every round consumes
a byte. -/
def readWal (input : Bytes) : Option (Option IoError × List Record) :=
  readLoop nextEntry (fun rs entry => some (rs ++ entry.record.toList)) (input.length + 1) [] input

/-- The lengths fit into a `uint32`. -/
def Record.Short : Record → Prop
  | .put key value => key.length < 2 ^ 32 ∧ value.length < 2 ^ 32
  | .delete key => key.length < 2 ^ 32

/-! ## Reading back -/

theorem readFull_append (a b : Bytes) : readFull a.length (a ++ b) = .ok (a, b) := by
  rw [readFull, if_pos (by simp)]
  simp

theorem readFull_incremental (n : ℕ) : Incremental (readFull n) := by
  intro p b rest h
  unfold readFull at h
  split_ifs at h with h1
  · obtain ⟨rfl, rfl⟩ := Prod.mk.inj (Except.ok.inj h)
    refine ⟨p.take n, (List.take_append_drop n p).symm, fun t => ?_⟩
    have hfull := readFull_append (p.take n) t
    rwa [List.length_take, Nat.min_eq_left h1] at hfull

theorem bigEndianUint32_encode {n : ℕ} (h : n < 2 ^ 32) : bigEndianUint32 (encodeUint32 n) = n := by
  simp only [bigEndianUint32, encodeUint32, toByte, List.foldl_cons, List.foldl_nil]
  omega

theorem readUint32_append {n : ℕ} (h : n < 2 ^ 32) (rest : Bytes) :
    readUint32 (encodeUint32 n ++ rest) = .ok (n, rest) := by
  have h4 := readFull_append (encodeUint32 n) rest
  rw [show (encodeUint32 n).length = 4 from rfl] at h4
  rw [readUint32, h4]
  show Except.ok (bigEndianUint32 (encodeUint32 n), rest) = _
  rw [bigEndianUint32_encode h]

theorem readUint32_incremental : Incremental readUint32 :=
  (readFull_incremental 4).bind fun buf => Incremental.pure (bigEndianUint32 buf)

theorem readFields_incremental (op : Byte) : Incremental (readFields op) := by
  have hlen : Incremental (readValueLen op) := by
    unfold readValueLen
    split_ifs
    · exact readUint32_incremental
    · exact Incremental.pure 0
  have hval : ∀ n, Incremental (readValue op n) := fun n => by
    unfold readValue
    split_ifs
    · exact readFull_incremental n
    · exact Incremental.pure []
  exact readUint32_incremental.bind fun keyLen => hlen.bind fun valueLen =>
    (readFull_incremental keyLen).bind fun key => (hval valueLen).bind fun value =>
      Incremental.pure (WalEntry.mk op key value)

theorem readFields_put {key value : Bytes} (h1 : key.length < 2 ^ 32) (h2 : value.length < 2 ^ 32)
    (rest : Bytes) : readFields opPut (encodeUint32 key.length ++ (encodeUint32 value.length ++
      (key ++ (value ++ rest)))) = .ok (⟨opPut, key, value⟩, rest) := by
  simp only [readFields, readUint32_append h1, readValueLen, if_true, readUint32_append h2, readFull_append,
    readValue, bind, Except.bind]

theorem readFields_delete {key : Bytes} (h : key.length < 2 ^ 32) (rest : Bytes) :
    readFields opDelete (encodeUint32 key.length ++ (key ++ rest)) = .ok (⟨opDelete, key, []⟩, rest) := by
  have hop : opDelete ≠ opPut := by decide
  simp only [readFields, readUint32_append h, readValueLen, if_neg hop, readFull_append, readValue, bind,
    Except.bind]

/-- A short record is read back, whatever follows it. -/
theorem nextEntry_bytes {r : Record} (h : r.Short) (rest : Bytes) :
    nextEntry (r.entry.bytes ++ rest) = .record r.entry rest := by
  cases r with
  | put key value =>
    have hb : (Record.put key value).entry.bytes ++ rest = opPut :: (encodeUint32 key.length ++
        (encodeUint32 value.length ++ (key ++ (value ++ rest)))) := by
      simp [Record.entry, WalEntry.bytes, walRecord]
    rw [hb, nextEntry, readFields_put h.1 h.2]
    rfl
  | delete key =>
    have hb : (Record.delete key).entry.bytes ++ rest = opDelete :: (encodeUint32 key.length ++
        (key ++ rest)) := by
      simp [Record.entry, WalEntry.bytes, walRecord]
    rw [hb, nextEntry, readFields_delete h]
    rfl

theorem nextEntry_eq_record {p rest : Bytes} {entry : WalEntry} (h : nextEntry p = .record entry rest) :
    ∃ op input, p = op :: input ∧ readFields op input = .ok (entry, rest) := by
  cases p with
  | nil => cases h
  | cons op input =>
    refine ⟨op, input, rfl, ?_⟩
    rw [nextEntry] at h
    cases hr : readFields op input with
    | error err =>
      rw [hr] at h
      cases h
    | ok x =>
      rw [hr] at h
      obtain ⟨rfl, rfl⟩ := Fetched.record.inj h
      rfl

/-- The reader and the writer of the log agree. -/
theorem wal_readable : Framing nextEntry WalEntry.bytes fun entry => ∃ r : Record, r.Short ∧ r.entry = entry where
  stop p := by
    cases p with
    | nil => exact iff_of_true rfl rfl
    | cons op input =>
      refine iff_of_false (fun h => ?_) (List.cons_ne_nil op input)
      rw [nextEntry] at h
      cases hr : readFields op input <;> rw [hr] at h <;> cases h
  record entry hok rest := by
    obtain ⟨r, hr, rfl⟩ := hok
    exact nextEntry_bytes hr rest
  used p entry rest h := by
    obtain ⟨op, input, rfl, hr⟩ := nextEntry_eq_record h
    obtain ⟨used, h1, h2⟩ := readFields_incremental op input entry rest hr
    refine ⟨op :: used, List.cons_ne_nil op used, by rw [h1, List.cons_append], fun t => ?_⟩
    rw [List.cons_append, nextEntry, h2]

theorem record_entry (r : Record) : r.entry.record = some r := by
  cases r <;> rfl

/-- The loop collects the records among the entries. -/
theorem foldlM_record (es : List WalEntry) : ∀ acc : List Record,
    es.foldlM (fun rs entry => some (rs ++ entry.record.toList)) acc =
      some (acc ++ es.filterMap WalEntry.record) := by
  induction es with
  | nil => intro acc; simp
  | cons entry es ih =>
    intro acc
    rw [List.foldlM_cons]
    show List.foldlM _ (acc ++ entry.record.toList) es = _
    rw [ih]
    cases hr : entry.record with
    | none => simp [hr]
    | some r => simp [hr]

theorem filterMap_record (rs : List Record) : (rs.map Record.entry).filterMap WalEntry.record = rs := by
  rw [List.filterMap_map, show WalEntry.record ∘ Record.entry = some from funext record_entry,
    List.filterMap_some]

theorem walBytes_eq (rs : List Record) : walBytes rs = (rs.map Record.entry).flatMap WalEntry.bytes := by
  rw [walBytes, List.flatMap_map]

/-- Every record has an operation byte. -/
theorem length_le_walBytes (rs : List Record) : rs.length ≤ (walBytes rs).length := by
  induction rs with
  | nil => exact Nat.zero_le _
  | cons r rs ih =>
    have hpos : 1 ≤ r.entry.bytes.length := by simp [WalEntry.bytes, walRecord]
    rw [walBytes, List.flatMap_cons, List.length_append, List.length_cons]
    rw [walBytes] at ih
    omega

/-- **WAL framing**: the read loop returns exactly the records that were written, in order, and then stops
at the end of the input; of a strict prefix it returns exactly the complete records, and then an error
unless the prefix ends between two records. -/
theorem wal_framing (rs : List Record) (h : ∀ r ∈ rs, r.Short) :
    readWal (walBytes rs) = some (none, rs) ∧
      ∀ p, p <+: walBytes rs → p ≠ walBytes rs → ∃ k err, readWal p = some (err, rs.take k) ∧
        k < rs.length ∧ walBytes (rs.take k) <+: p ∧ ¬ walBytes (rs.take (k + 1)) <+: p ∧
        (err = none ↔ ∃ j, p = walBytes (rs.take j)) := by
  have hok : ∀ entry ∈ rs.map Record.entry, ∃ r : Record, r.Short ∧ r.entry = entry := by
    intro entry hm
    obtain ⟨r, hr, rfl⟩ := List.mem_map.mp hm
    exact ⟨r, h r hr, rfl⟩
  constructor
  · have hlen := length_le_walBytes rs
    rw [readWal, walBytes_eq, wal_readable.readLoop_all _ hok _ _ (by rw [List.length_map, ← walBytes_eq]; omega),
      foldlM_record, filterMap_record]
    rfl
  · intro p hp hne
    rw [walBytes_eq] at hp hne
    obtain ⟨k, err, h1, h2, h3, h4, h5⟩ := wal_readable.readLoop_cut _ p hok hp hne
    rw [List.length_map] at h1
    have hcut := boundary_iff h2 h3
    simp only [← List.map_take, ← walBytes_eq] at h2 h3 h4 h5 hcut
    have hlen := (length_le_walBytes (rs.take k)).trans h2.length_le
    rw [List.length_take] at hlen
    refine ⟨k, err, ?_, h1, h2, h3, h4.trans hcut⟩
    rw [readWal, h5 _ _ (by omega), foldlM_record, filterMap_record]
    rfl

/-- `Put("a", "")`, `Delete("")`, and the same log without its last byte. -/
theorem wal_framing_sample : readWal (walBytes [.put [97] [], .delete []]) = some (none, [.put [97] [], .delete []]) ∧
    ∃ err, readWal (walBytes [.put [97] [], .delete []]).dropLast = some (err, [.put [97] []]) ∧ err ≠ none := by
  have hshort : ∀ r ∈ [Record.put [97] [], Record.delete []], r.Short := by
    simp [Record.Short]
  obtain ⟨h1, h2⟩ := wal_framing _ hshort
  refine ⟨h1, ?_⟩
  obtain ⟨k, err, h3, h4, -, h6, h7⟩ := h2 _ (List.dropLast_prefix _) (by decide)
  match k, h4 with
  | 0, _ => exact absurd (by decide) h6
  | 1, _ =>
    refine ⟨err, h3, fun herr => ?_⟩
    obtain ⟨j, hj⟩ := h7.mp herr
    match j with
    | 0 => exact absurd hj (by decide)
    | 1 => exact absurd hj (by decide)
    | j + 2 => exact absurd hj (by simp only [List.take_succ_cons, List.take_nil]; decide)

end Csapp.Lsm
