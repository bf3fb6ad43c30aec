import Mathlib.Data.List.Infix
import Csapp.Lib.BigEndian

/-!
# KvStore.Store — the file of `01-distributed-kvstore`

`Set` appends a record to the file: the length of the encoded pair in 8 bytes, and the encoded pair.  `Get`
reads the records from the start and returns the value of the first one that has the key
(`Holds.get_eq`), so a later value of a key is never seen.  The store is a map for exactly the sequences in which
every key has the same first and last value (`get_iff`).

Strings are their bytes.  `none` is a panic of `make`; memory is taken to suffice below the bound of the
allocator, and reads of the file are taken not to fail.
-/

namespace Csapp.KvStore

open Csapp.Lib

abbrev GoString := List UInt8

/-- The bytes of a literal. -/
def lit (s : String) : GoString := s.toList.map fun c => UInt8.ofNat c.toNat

/-- `strings.Contains`. -/
def contains (s substr : GoString) : Bool := decide (substr <:+: s)

structure Data where
  key : GoString
  value : GoString
  deriving DecidableEq

/-- `make` of more bytes panics. -/
def maxAlloc : ℕ := 2 ^ 48

/-- `proto.Marshal` and `proto.Unmarshal` for `Data`: what is encoded is a slice, and it decodes to the
message. -/
structure Proto where
  marshal : Data → Except GoString (List UInt8)
  unmarshal : List UInt8 → Except GoString Data
  length_le : ∀ data bytes, marshal data = .ok bytes → bytes.length ≤ maxAlloc
  round_trip : ∀ data bytes, marshal data = .ok bytes → unmarshal bytes = .ok data

/-! ## The source -/

inductive ReadError
  | eof
  | unexpectedEof
  deriving DecidableEq

/-- `io.ReadFull` into a buffer of `n` bytes: the buffer and what is left of the file. -/
def readFull (n : ℕ) (file : List UInt8) : Except ReadError (List UInt8 × List UInt8) :=
  if n ≤ file.length then .ok (file.take n, file.drop n)
  else if file = [] then .error .eof
  else .error .unexpectedEof

/-- The step of a call that fails, with its error; `Write` has then written the first `n` bytes. -/
inductive Failure
  | seekStart (err : GoString)
  | seekEnd (err : GoString)
  | writeLength (n : ℕ) (err : GoString)
  | writeData (n : ℕ) (err : GoString)
  | sync (err : GoString)

def errNotExist (key : GoString) : GoString :=
  lit "the key: " ++ key ++ lit " does not exist in the key-value store"

def errUnexpectedEof : GoString := lit "unexpected EOF"

section Source

variable (pb : Proto)

/-- The loop of `Get`; the file is what is left to read. -/
def getLoop (key : GoString) : ℕ → List UInt8 → Option (Except GoString GoString)
  | 0, _ => none
  | fuel + 1, file =>
    match readFull 8 file with
    | .error .eof => some (.error (errNotExist key))
    | .error .unexpectedEof => some (.error errUnexpectedEof)
    | .ok (prefixBuf, file) =>
      if maxAlloc < beNat prefixBuf then none
      else
        match readFull (beNat prefixBuf) file with
        | .error .eof => some (.error (errNotExist key))
        | .error .unexpectedEof => some (.error errUnexpectedEof)
        | .ok (dataBuf, file) =>
          match pb.unmarshal dataBuf with
          | .error err => some (.error (lit "failed to unmarshal record data: " ++ err))
          | .ok data => if key = data.key then some (.ok data.value) else getLoop key fuel file

def get (failure : Option Failure) (key : GoString) (file : List UInt8) : Option (Except GoString GoString) :=
  match failure with
  | some (.seekStart err) => some (.error err)
  | _ => getLoop pb key (file.length + 1) file

/-- `Set` from `proto.Marshal` on. -/
def append (failure : Option Failure) (keyValue : Data) (file : List UInt8) : Except GoString Unit × List UInt8 :=
  match pb.marshal keyValue with
  | .error err => (.error (lit "failed to serialize key-value pair: " ++ err), file)
  | .ok dataBytes =>
    let lengthBytes := beBytes 8 dataBytes.length
    match failure with
    | some (.seekEnd err) => (.error (lit "failed to seek to end of file: " ++ err), file)
    | some (.writeLength n err) => (.error (lit "failed to write length prefix: " ++ err), file ++ lengthBytes.take n)
    | some (.writeData n err) =>
      (.error (lit "failed to write data: " ++ err), file ++ (lengthBytes ++ dataBytes.take n))
    | some (.sync err) => (.error (lit "failed to flush data to disk: " ++ err), file ++ (lengthBytes ++ dataBytes))
    | _ => (.ok (), file ++ (lengthBytes ++ dataBytes))

def set (failure : Option Failure) (keyValue : Data) (file : List UInt8) :
    Option (Except GoString Unit × List UInt8) :=
  match get pb failure keyValue.key file with
  | none => none
  | some (.ok existingValue) =>
    if existingValue = keyValue.value then some (.ok (), file) else some (append pb failure keyValue file)
  | some (.error err) =>
    if contains err (lit "does not exist") then some (append pb failure keyValue file)
    else some (.error (lit "failed to check existing key: " ++ err), file)

/-- Calls of `Set` that all succeed. -/
def setAll : List Data → List UInt8 → Option (List UInt8)
  | [], file => some file
  | keyValue :: sets, file =>
    match set pb none keyValue file with
    | some (.ok (), file) => setAll sets file
    | _ => none

end Source

/-! ## The map that it should be -/

/-- The value of the first pair with the key. -/
def firstValue (key : GoString) (pairs : List Data) : Option GoString :=
  (pairs.find? fun data => key = data.key).map Data.value

/-- The value of the last pair with the key. -/
def lastValue (key : GoString) (pairs : List Data) : Option GoString := firstValue key pairs.reverse

/-- What `Get` should return for a key that has this value, if any. -/
def answer (key : GoString) : Option GoString → Except GoString GoString
  | some value => .ok value
  | none => .error (errNotExist key)

/-! ## Records -/

variable {pb : Proto} {key : GoString} {data kv : Data} {rs sets : List Data} {file file' : List UInt8}

def Proto.bytes (pb : Proto) (data : Data) : List UInt8 :=
  match pb.marshal data with
  | .ok bytes => bytes
  | .error _ => []

/-- What `Set` appends. -/
def record (pb : Proto) (data : Data) : List UInt8 := beBytes 8 (pb.bytes data).length ++ pb.bytes data

/-- The file consists of the records of these pairs. -/
structure Holds (pb : Proto) (rs : List Data) (file : List UInt8) : Prop where
  encodes : ∀ data ∈ rs, pb.marshal data = .ok (pb.bytes data)
  file_eq : file = rs.flatMap (record pb)

theorem bytes_eq {bytes : List UInt8} (h : pb.marshal data = .ok bytes) : pb.bytes data = bytes := by
  rw [Proto.bytes, h]

theorem readFull_append {n : ℕ} {l : List UInt8} (h : l.length = n) (rest : List UInt8) :
    readFull n (l ++ rest) = .ok (l, rest) := by
  rw [readFull, if_pos (by rw [List.length_append]; omega), List.take_left' h, List.drop_left' h]

theorem beNat_length {n : ℕ} (h : n ≤ maxAlloc) : beNat (beBytes 8 n) = n := by
  rw [beNat_beBytes, Nat.mod_eq_of_lt (lt_of_le_of_lt h (by decide))]

/-- The loop reads one record and returns its value or goes on. -/
theorem getLoop_record (h : pb.marshal data = .ok (pb.bytes data)) (key : GoString) (fuel : ℕ) (rest : List UInt8) :
    getLoop pb key (fuel + 1) (record pb data ++ rest) =
      if key = data.key then some (.ok data.value) else getLoop pb key fuel rest := by
  have hle := pb.length_le _ _ h
  rw [getLoop, record, List.append_assoc, readFull_append (length_beBytes 8 _)]
  simp only [beNat_length hle, if_neg (not_lt.mpr hle), readFull_append rfl, pb.round_trip _ _ h]

/-- It passes the records that do not have the key. -/
theorem getLoop_records (key : GoString) (fuel : ℕ) (rest : List UInt8) :
    ∀ rs : List Data, (∀ data ∈ rs, pb.marshal data = .ok (pb.bytes data)) →
      getLoop pb key (rs.length + fuel) (rs.flatMap (record pb) ++ rest) =
        match firstValue key rs with
        | some value => some (.ok value)
        | none => getLoop pb key fuel rest
  | [], _ => by
    rw [List.length_nil, Nat.zero_add]
    rfl
  | data :: rs, h => by
    have ih := getLoop_records key fuel rest rs fun d hd => h d (List.mem_cons_of_mem data hd)
    rw [List.length_cons, Nat.succ_add, List.flatMap_cons, List.append_assoc,
      getLoop_record (h data List.mem_cons_self), ih, firstValue, firstValue, List.find?_cons]
    by_cases hk : key = data.key
    · rw [if_pos hk, decide_eq_true hk]
      rfl
    · rw [if_neg hk, decide_eq_false hk]

theorem length_le_flatMap_record (pb : Proto) (rs : List Data) : rs.length ≤ (rs.flatMap (record pb)).length := by
  induction rs with
  | nil => exact le_rfl
  | cons data rs ih =>
    rw [List.flatMap_cons, List.length_append, List.length_cons, record, List.length_append, length_beBytes]
    omega

/-- `Get` on a file that begins with records. -/
theorem Holds.get_append (h : Holds pb rs file) (key : GoString) (rest : List UInt8) :
    ∃ fuel, get pb none key (file ++ rest) =
      match firstValue key rs with
      | some value => some (.ok value)
      | none => getLoop pb key (fuel + 1) rest := by
  refine ⟨(file ++ rest).length - rs.length, ?_⟩
  have hlen := length_le_flatMap_record pb rs
  rw [← h.file_eq] at hlen
  have hfuel : (file ++ rest).length + 1 = rs.length + ((file ++ rest).length - rs.length + 1) := by
    rw [List.length_append]
    omega
  show getLoop pb key ((file ++ rest).length + 1) (file ++ rest) = _
  rw [hfuel, ← getLoop_records key _ rest rs h.encodes, ← h.file_eq]

/-- **`Get`** returns the value of the first record with the key. -/
theorem Holds.get_eq (h : Holds pb rs file) (key : GoString) :
    get pb none key file = some (answer key (firstValue key rs)) := by
  obtain ⟨fuel, hget⟩ := h.get_append key []
  rw [List.append_nil] at hget
  rw [hget]
  cases firstValue key rs <;> rfl

/-! ## `Set` -/

theorem contains_errNotExist (key : GoString) : contains (errNotExist key) (lit "does not exist") = true := by
  apply decide_eq_true
  refine ⟨lit "the key: " ++ key ++ lit " ", lit " in the key-value store", ?_⟩
  have hlit : lit " does not exist in the key-value store" =
      lit " " ++ lit "does not exist" ++ lit " in the key-value store" := by decide
  rw [errNotExist, hlit]
  simp only [List.append_assoc]

/-- `Set` does nothing if the first record of the key has the value, and appends otherwise. -/
theorem Holds.set_eq (h : Holds pb rs file) {failure : Option Failure}
    (hs : ∀ err, failure ≠ some (.seekStart err)) (kv : Data) :
    set pb failure kv file =
      if firstValue kv.key rs = some kv.value then some (.ok (), file) else some (append pb failure kv file) := by
  have hget : get pb failure kv.key file = some (answer kv.key (firstValue kv.key rs)) := by
    rw [← h.get_eq kv.key, get]
    · rfl
    · exact hs
  rw [set, hget]
  cases firstValue kv.key rs with
  | some value => simp only [answer, Option.some.injEq]
  | none => simp only [answer, contains_errNotExist, if_true, reduceCtorEq, if_false]

theorem append_ok (h : append pb none kv file = (.ok (), file')) :
    pb.marshal kv = .ok (pb.bytes kv) ∧ file' = file ++ record pb kv := by
  rw [append] at h
  cases hm : pb.marshal kv with
  | error err =>
    rw [hm] at h
    cases (Prod.mk.inj h).1
  | ok bytes =>
    rw [hm] at h
    obtain ⟨-, rfl⟩ := Prod.mk.inj h
    rw [record, bytes_eq hm]
    exact ⟨rfl, rfl⟩

theorem Holds.append_record (h : Holds pb rs file) (hm : pb.marshal kv = .ok (pb.bytes kv)) :
    Holds pb (rs ++ [kv]) (file ++ record pb kv) := by
  refine ⟨fun data hd => ?_, by rw [h.file_eq, List.flatMap_append, List.flatMap_singleton]⟩
  rcases List.mem_append.mp hd with hd | hd
  · exact h.encodes data hd
  · rwa [List.mem_singleton.mp hd]

/-- The records after `Set`. -/
def put (rs : List Data) (kv : Data) : List Data :=
  if firstValue kv.key rs = some kv.value then rs else rs ++ [kv]

/-- **A successful `Set`** leaves the file as it is or adds a record at its end. -/
theorem Holds.of_set (h : Holds pb rs file) (hset : set pb none kv file = some (.ok (), file')) :
    Holds pb (put rs kv) file' := by
  rw [h.set_eq fun _ => (Option.some_ne_none _).symm] at hset
  rw [put]
  split_ifs at hset ⊢
  · obtain ⟨-, rfl⟩ := Prod.mk.inj (Option.some.inj hset)
    exact h
  · obtain ⟨hm, rfl⟩ := append_ok (Option.some.inj hset)
    exact h.append_record hm

/-- The first of the calls succeeds, and then the others do. -/
theorem setAll_cons {fileEnd : List UInt8} (h : setAll pb (kv :: sets) file = some fileEnd) :
    ∃ file₁, set pb none kv file = some (.ok (), file₁) ∧ setAll pb sets file₁ = some fileEnd := by
  rw [setAll] at h
  cases hone : set pb none kv file with
  | none =>
    rw [hone] at h
    cases h
  | some res =>
    obtain ⟨err | ⟨⟩, file₁⟩ := res
    · rw [hone] at h
      cases h
    · rw [hone] at h
      exact ⟨file₁, rfl, h⟩

theorem Holds.of_setAll : ∀ {sets : List Data} {rs : List Data} {file : List UInt8}, Holds pb rs file →
    setAll pb sets file = some file' → Holds pb (sets.foldl put rs) file'
  | [], rs, file, h, hset => by
    rw [setAll, Option.some.injEq] at hset
    exact hset ▸ h
  | kv :: sets, rs, file, h, hset => by
    obtain ⟨file₁, h1, h2⟩ := setAll_cons hset
    exact (h.of_set h1).of_setAll h2

theorem firstValue_append (key : GoString) (rs rs' : List Data) :
    firstValue key (rs ++ rs') = (firstValue key rs).or (firstValue key rs') := by
  rw [firstValue, firstValue, List.find?_append]
  cases List.find? (fun data => decide (key = data.key)) rs <;> rfl

/-- The records that `Set` leaves out are not the first ones of their keys. -/
theorem firstValue_put (key : GoString) (rs : List Data) (kv : Data) (later : List Data) :
    firstValue key (put rs kv ++ later) = firstValue key (rs ++ kv :: later) := by
  rw [put]
  split_ifs with h
  · rw [firstValue_append, firstValue_append, firstValue, firstValue, firstValue, List.find?_cons]
    by_cases hk : key = kv.key
    · rw [← hk, firstValue] at h
      rw [h]
      rfl
    · rw [decide_eq_false hk]
  · rw [List.append_assoc]
    rfl

theorem firstValue_foldl_put (key : GoString) : ∀ (sets rs : List Data),
    firstValue key (sets.foldl put rs) = firstValue key (rs ++ sets)
  | [], rs => by rw [List.foldl_nil, List.append_nil]
  | kv :: sets, rs => by
    rw [List.foldl_cons, firstValue_foldl_put key sets (put rs kv), firstValue_put]

/-- The file after successful calls on an empty one. -/
theorem setAll_append (xs ys : List Data) (file : List UInt8) :
    setAll pb (xs ++ ys) file = (setAll pb xs file).bind (setAll pb ys) := by
  induction xs generalizing file with
  | nil => rfl
  | cons x xs ih =>
    rw [List.cons_append, setAll, setAll]
    split
    · exact ih _
    · rfl

theorem holds_setAll (h : setAll pb sets [] = some file) : Holds pb (sets.foldl put []) file :=
  Holds.of_setAll ⟨by simp, rfl⟩ h

/-- `Get` after successful calls returns the value of the first one. -/
theorem get_setAll (h : setAll pb sets [] = some file) (key : GoString) :
    get pb none key file = some (answer key (firstValue key sets)) := by
  rw [(holds_setAll h).get_eq key, firstValue_foldl_put, List.nil_append]

theorem answer_inj {v w : Option GoString} (h : answer key v = answer key w) : v = w := by
  cases v with
  | none =>
    cases w with
    | none => rfl
    | some w => cases h
  | some v =>
    cases w with
    | none => cases h
    | some w => rw [Except.ok.inj h]

/-- **The store acts as a map** after successful calls of `Set` iff the first value of each key is its last
one. -/
theorem get_iff (pb : Proto) (sets : List Data) (file : List UInt8) (h : setAll pb sets [] = some file) :
    (∀ key, get pb none key file = some (answer key (lastValue key sets))) ↔
      ∀ key, firstValue key sets = lastValue key sets := by
  refine forall_congr' fun key => ?_
  rw [get_setAll h key]
  exact ⟨fun heq => answer_inj (Option.some.inj heq), fun heq => by rw [heq]⟩

/-! ### Short strings on the wire

The encoding of messages with ASCII strings of less than 128 bytes, in which every length is one byte. -/

def short (s : GoString) : Bool := decide (s.length < 128) && s.all fun c => decide (c < 128)

/-- Empty strings are left out. -/
def field (tag : UInt8) (s : GoString) : List UInt8 :=
  if s = [] then [] else tag :: UInt8.ofNat s.length :: s

/-- The string of a field, if it comes next, and what follows it. -/
def readField (tag : UInt8) : List UInt8 → GoString × List UInt8
  | t :: n :: rest =>
    if t = tag ∧ n.toNat ≤ rest.length then (rest.take n.toNat, rest.drop n.toNat) else ([], t :: n :: rest)
  | rest => ([], rest)

theorem readField_field {tag : UInt8} {s : GoString} (h : short s = true) (rest : List UInt8)
    (hrest : ∀ t ∈ rest.head?, t ≠ tag) : readField tag (field tag s ++ rest) = (s, rest) := by
  by_cases hs : s = []
  · rw [hs, field, if_pos rfl, List.nil_append]
    match rest, hrest with
    | [], _ => rfl
    | [t], _ => rfl
    | t :: n :: rest, hrest =>
      have ht : t ≠ tag := hrest t rfl
      rw [readField, if_neg fun hand => ht hand.1]
  · have hlen : s.length < 128 := of_decide_eq_true (Bool.and_eq_true_iff.mp h).1
    have hn : (UInt8.ofNat s.length).toNat = s.length :=
      UInt8.toNat_ofNat_of_lt' (lt_trans hlen (by decide))
    rw [field, if_neg hs, List.cons_append, List.cons_append, readField, hn, if_pos ⟨rfl, by simp⟩,
      List.take_left, List.drop_left]

def shortMarshal (data : Data) : Except GoString (List UInt8) :=
  if short data.key && short data.value then .ok (field 10 data.key ++ field 18 data.value)
  else .error (lit "long string")

def shortUnmarshal (bytes : List UInt8) : Except GoString Data :=
  if (readField 18 (readField 10 bytes).2).2 = [] then
    .ok ⟨(readField 10 bytes).1, (readField 18 (readField 10 bytes).2).1⟩
  else .error (lit "proto: cannot parse invalid wire-format data")

theorem shortMarshal_ok {data : Data} {bytes : List UInt8} (h : shortMarshal data = .ok bytes) :
    (short data.key = true ∧ short data.value = true) ∧ bytes = field 10 data.key ++ field 18 data.value := by
  rw [shortMarshal] at h
  split_ifs at h with hs
  exact ⟨Bool.and_eq_true_iff.mp hs, (Except.ok.inj h).symm⟩

theorem length_field_le (tag : UInt8) {s : GoString} (h : short s = true) : (field tag s).length ≤ 130 := by
  have hlen : s.length < 128 := of_decide_eq_true (Bool.and_eq_true_iff.mp h).1
  rw [field]
  split_ifs
  · exact Nat.zero_le _
  · simp only [List.length_cons]
    omega

def shortProto : Proto where
  marshal := shortMarshal
  unmarshal := shortUnmarshal
  length_le data bytes h := by
    obtain ⟨⟨h1, h2⟩, rfl⟩ := shortMarshal_ok h
    have hk := length_field_le 10 h1
    have hv := length_field_le 18 h2
    rw [List.length_append]
    exact le_trans (Nat.add_le_add hk hv) (by decide)
  round_trip data bytes h := by
    obtain ⟨⟨h1, h2⟩, rfl⟩ := shortMarshal_ok h
    have hhead : ∀ t ∈ (field 18 data.value).head?, t ≠ 10 := by
      intro t ht
      rw [field] at ht
      split_ifs at ht
      · cases ht
      · obtain rfl := Option.some.inj ht
        decide
    have hvalue : readField 18 (field 18 data.value) = (data.value, []) := by
      have hnil : readField 18 (field 18 data.value ++ []) = (data.value, []) := readField_field h2 [] (by simp)
      rwa [List.append_nil] at hnil
    rw [shortUnmarshal, readField_field h1 _ hhead]
    dsimp only
    rw [hvalue, if_pos rfl]

/-- The key `"a"` with its value as one character. -/
def setA (value : UInt8) : Data := ⟨[97], [value]⟩

/-- Two calls with the same value, and one for another key. -/
theorem get_iff_sample : ∃ file, setAll shortProto [setA 49, setA 49, ⟨[98], []⟩] [] = some file ∧
    ∀ key, get shortProto none key file = some (answer key (lastValue key [setA 49, setA 49, ⟨[98], []⟩])) := by
  have hrun : setAll shortProto [setA 49, setA 49, ⟨[98], []⟩] [] =
      some (record shortProto (setA 49) ++ record shortProto ⟨[98], []⟩) := by decide +kernel
  refine ⟨_, hrun, (get_iff shortProto _ _ hrun).mpr fun key => ?_⟩
  simp only [lastValue, firstValue, List.find?, List.reverse_cons, List.reverse_nil, List.nil_append, setA,
    List.cons_append]
  by_cases ha : key = [97]
  · rw [ha]
    rfl
  · by_cases hb : key = [98] <;> simp [ha, hb]

/-- After `Set("a", "1")` and `Set("a", "2")`, `Get("a")` returns `"1"`. -/
theorem get_setAll_old : ∃ file, setAll shortProto [setA 49, setA 50] [] = some file ∧
    lastValue [97] [setA 49, setA 50] = some [50] ∧ get shortProto none [97] file = some (.ok [49]) :=
  ⟨record shortProto (setA 49) ++ record shortProto (setA 50), by decide +kernel, by decide, by decide +kernel⟩

end Csapp.KvStore
