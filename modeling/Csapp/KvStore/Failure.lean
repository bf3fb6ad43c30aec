import Csapp.KvStore.Store

/-!
# KvStore.Failure — what a failed `Set` leaves behind

A `Set` that fails leaves in the file what it has written of its record.  Nothing, and the whole record of a
key that is there already, do no harm by themselves.  A record that is cut makes `Get` of every missing key fail,
with one exception: after exactly the length of a record the file ends where data should begin, which `Get` takes
for the end of the records.  What is appended then is read as the data of the length, and it never decodes,
since it begins with a byte 0.  So no later `Set` may append (`failed_set_iff`).
-/

namespace Csapp.KvStore

open Csapp.Lib

/-- What a failed `Set` of this pair has appended. -/
def Failure.written : Failure → List UInt8 → List UInt8
  | .seekStart _, _ => []
  | .seekEnd _, _ => []
  | .writeLength n _, dataBytes => (beBytes 8 dataBytes.length).take n
  | .writeData n _, dataBytes => beBytes 8 dataBytes.length ++ dataBytes.take n
  | .sync _, dataBytes => beBytes 8 dataBytes.length ++ dataBytes

/-- The first value that each key of the later calls ever has is the one that they set last. -/
def Agrees (sets later : List Data) : Prop :=
  ∀ key value, lastValue key later = some value → firstValue key (sets ++ later) = some value

/-- Each key of the later calls is there already with its last value. -/
def Repeats (sets later : List Data) : Prop :=
  ∀ key value, lastValue key later = some value → firstValue key sets = some value

/-- What has been written may stay in the file. -/
def Harmless (pb : Proto) (failure : Failure) (kv : Data) (sets later : List Data) : Prop :=
  (failure.written (pb.bytes kv) = [] ∧ Agrees sets later) ∨
    (failure.written (pb.bytes kv) = record pb kv ∧ firstValue kv.key sets ≠ none ∧ Agrees sets later) ∨
    (failure.written (pb.bytes kv) = beBytes 8 (pb.bytes kv).length ∧ pb.bytes kv ≠ [] ∧ Repeats sets later)

/-- A record that is cut, but not behind its length. -/
def Torn (pb : Proto) (kv : Data) (junk : List UInt8) : Prop :=
  (0 < junk.length ∧ junk.length < 8) ∨
    ∃ n, 0 < n ∧ n < (pb.bytes kv).length ∧ junk = beBytes 8 (pb.bytes kv).length ++ (pb.bytes kv).take n

variable {pb : Proto} {key : GoString} {kv : Data} {rs sets later : List Data} {file file' fileEnd : List UInt8}

theorem written_cases (pb : Proto) (failure : Failure) (kv : Data) :
    failure.written (pb.bytes kv) = [] ∨ failure.written (pb.bytes kv) = record pb kv ∨
      (failure.written (pb.bytes kv) = beBytes 8 (pb.bytes kv).length ∧ pb.bytes kv ≠ []) ∨
      Torn pb kv (failure.written (pb.bytes kv)) := by
  have hdata : ∀ n, beBytes 8 (pb.bytes kv).length ++ (pb.bytes kv).take n = record pb kv ∨
      (beBytes 8 (pb.bytes kv).length ++ (pb.bytes kv).take n = beBytes 8 (pb.bytes kv).length ∧ pb.bytes kv ≠ []) ∨
      Torn pb kv (beBytes 8 (pb.bytes kv).length ++ (pb.bytes kv).take n) := by
    intro n
    by_cases hn : (pb.bytes kv).length ≤ n
    · exact Or.inl (by rw [record, List.take_of_length_le hn])
    · rcases Nat.eq_zero_or_pos n with rfl | hpos
      · refine Or.inr (Or.inl ⟨by rw [List.take_zero, List.append_nil], ?_⟩)
        rintro hnil
        exact hn (by rw [hnil]; exact le_rfl)
      · exact Or.inr (Or.inr (Or.inr ⟨n, hpos, not_le.mp hn, rfl⟩))
  cases failure with
  | seekStart err => exact Or.inl rfl
  | seekEnd err => exact Or.inl rfl
  | writeLength n err =>
    simp only [Failure.written]
    by_cases hn : 8 ≤ n
    · rw [List.take_of_length_le (by rw [length_beBytes]; exact hn)]
      have h0 := hdata 0
      rw [List.take_zero, List.append_nil] at h0
      exact Or.inr h0
    · rcases Nat.eq_zero_or_pos n with rfl | hpos
      · exact Or.inl rfl
      · refine Or.inr (Or.inr (Or.inr (Or.inl ?_)))
        rw [List.length_take, length_beBytes]
        omega
  | writeData n err => exact Or.inr (hdata n)
  | sync err => exact Or.inr (Or.inl rfl)

theorem append_written (hm : pb.marshal kv = .ok (pb.bytes kv)) {failure : Failure}
    (hs : ∀ err, failure ≠ .seekStart err) (file : List UInt8) :
    (append pb (some failure) kv file).2 = file ++ failure.written (pb.bytes kv) := by
  rw [append, hm]
  cases failure with
  | seekStart err => exact absurd rfl (hs err)
  | seekEnd err => exact (List.append_nil file).symm
  | writeLength n err => rfl
  | writeData n err => rfl
  | sync err => rfl

/-- `Get` has failed.  Should the text of its error say "does not exist", then `Set` goes on, and fails only if
the pair does not encode. -/
theorem set_seekStart_failed {e err : GoString}
    (h : set pb (some (.seekStart e)) kv file = some (.error err, file')) : file' = file := by
  rw [set, get, append] at h
  dsimp only at h
  split_ifs at h
  · cases hm : pb.marshal kv with
    | error e' =>
      rw [hm] at h
      exact (Prod.mk.inj (Option.some.inj h)).2.symm
    | ok bytes =>
      rw [hm] at h
      cases (Prod.mk.inj (Option.some.inj h)).1
  · exact (Prod.mk.inj (Option.some.inj h)).2.symm

/-- What a failed call does to the file. -/
theorem Holds.set_failed (h : Holds pb rs file) {failure : Failure} {err : GoString} {file₀ : List UInt8}
    (hfail : set pb (some failure) kv file = some (.error err, file'))
    (hok : set pb none kv file = some (.ok (), file₀)) :
    file' = file ++ failure.written (pb.bytes kv) ∧
      (failure.written (pb.bytes kv) ≠ [] → pb.marshal kv = .ok (pb.bytes kv)) := by
  by_cases hstart : ∃ e, failure = .seekStart e
  · obtain ⟨e, rfl⟩ := hstart
    refine ⟨?_, fun hne => absurd rfl hne⟩
    rw [Failure.written, List.append_nil]
    exact set_seekStart_failed hfail
  · have hs : ∀ e, failure ≠ .seekStart e := fun e he => hstart ⟨e, he⟩
    rw [h.set_eq fun _ => (Option.some_ne_none _).symm] at hok
    rw [h.set_eq fun e he => hs e (Option.some.inj he)] at hfail
    split_ifs at hfail hok
    · cases (Prod.mk.inj (Option.some.inj hfail)).1
    · obtain ⟨hm, -⟩ := append_ok (Option.some.inj hok)
      refine ⟨?_, fun _ => hm⟩
      rw [← append_written hm hs, Option.some.inj hfail]

/-! ## Reading behind the records -/

theorem readFull_short {n : ℕ} {l : List UInt8} (h : l.length < n) (hne : l ≠ []) :
    readFull n l = .error .unexpectedEof := by
  rw [readFull, if_neg (not_le.mpr h), if_neg hne]

section Junk

variable (hm : pb.marshal kv = .ok (pb.bytes kv))
include hm

/-- A record that is cut makes the loop fail. -/
theorem getLoop_torn {junk : List UInt8} (h : Torn pb kv junk) (key : GoString) (fuel : ℕ) :
    getLoop pb key (fuel + 1) junk = some (.error errUnexpectedEof) := by
  have hle := pb.length_le _ _ hm
  rw [getLoop]
  rcases h with ⟨hpos, hlt⟩ | ⟨n, hpos, hlt, rfl⟩
  · rw [readFull_short hlt (List.length_pos_iff.mp hpos)]
  · have hne : (pb.bytes kv).take n ≠ [] := by
      apply List.length_pos_iff.mp
      rw [List.length_take]
      omega
    rw [readFull_append (length_beBytes 8 _)]
    simp only [beNat_length hle, if_neg (not_lt.mpr hle)]
    rw [readFull_short (by rw [List.length_take]; omega) hne]

/-- A length with nothing behind it ends the loop as the end of the records does. -/
theorem getLoop_length (hne : pb.bytes kv ≠ []) (key : GoString) (fuel : ℕ) :
    getLoop pb key (fuel + 1) (beBytes 8 (pb.bytes kv).length) = some (.error (errNotExist key)) := by
  have hle := pb.length_le _ _ hm
  have hpos := List.length_pos_iff.mpr hne
  have hread := readFull_append (length_beBytes 8 (pb.bytes kv).length) []
  rw [List.append_nil] at hread
  have heof : readFull (pb.bytes kv).length [] = .error .eof := by
    rw [readFull, List.length_nil, if_neg (not_le.mpr hpos), if_pos rfl]
  rw [getLoop, hread]
  simp only [beNat_length hle, if_neg (not_lt.mpr hle), heof]

/-- With a byte 0 behind it, it makes the loop fail. -/
theorem getLoop_length_zero (hz : ∀ bytes, ∃ err, pb.unmarshal (0 :: bytes) = .error err) (hne : pb.bytes kv ≠ [])
    (key : GoString) (fuel : ℕ) (t : List UInt8) (value : GoString) :
    getLoop pb key (fuel + 1) (beBytes 8 (pb.bytes kv).length ++ 0 :: t) ≠ some (.ok value) := by
  have hle := pb.length_le _ _ hm
  have hpos := List.length_pos_iff.mpr hne
  rw [getLoop, readFull_append (length_beBytes 8 _)]
  simp only [beNat_length hle, if_neg (not_lt.mpr hle)]
  by_cases hlen : (pb.bytes kv).length ≤ (0 :: t).length
  · obtain ⟨err, herr⟩ := hz (t.take ((pb.bytes kv).length - 1))
    have htake : (0 :: t).take (pb.bytes kv).length = 0 :: t.take ((pb.bytes kv).length - 1) :=
      List.take_cons hpos
    rw [readFull, if_pos hlen, htake]
    simp only [herr]
    intro heq
    cases Option.some.inj heq
  · rw [readFull_short (not_le.mp hlen) (List.cons_ne_nil 0 t)]
    intro heq
    cases Option.some.inj heq

end Junk

/-! ## What successful calls append -/

theorem record_zero (hm : pb.marshal kv = .ok (pb.bytes kv)) : ∃ t, record pb kv = 0 :: t := by
  have hlt : (pb.bytes kv).length < 256 ^ 7 := lt_of_le_of_lt (pb.length_le _ _ hm) (by decide)
  rw [record, beBytes, Nat.div_eq_of_lt hlt]
  exact ⟨_, rfl⟩

/-- `Set` keeps what is in the file and appends a record or nothing. -/
theorem set_ok (h : set pb none kv file = some (.ok (), file')) :
    file' = file ∨ file' = file ++ record pb kv ∧ pb.marshal kv = .ok (pb.bytes kv) := by
  rw [set] at h
  cases hget : get pb none kv.key file with
  | none =>
    rw [hget] at h
    cases h
  | some res =>
    rw [hget] at h
    cases res with
    | ok existing =>
      dsimp only at h
      split_ifs at h
      · exact Or.inl (Prod.mk.inj (Option.some.inj h)).2.symm
      · exact Or.inr (append_ok (Option.some.inj h)).symm
    | error err =>
      dsimp only at h
      split_ifs at h
      · exact Or.inr (append_ok (Option.some.inj h)).symm
      · cases (Prod.mk.inj (Option.some.inj h)).1

/-- What successful calls append begins with a byte 0, if there is anything. -/
theorem setAll_appends : ∀ {later : List Data} {file : List UInt8}, setAll pb later file = some fileEnd →
    fileEnd = file ∨ ∃ t, fileEnd = file ++ 0 :: t
  | [], file, h => by
    rw [setAll, Option.some.injEq] at h
    exact Or.inl h.symm
  | kv :: later, file, h => by
    obtain ⟨file₁, h1, h2⟩ := setAll_cons h
    have ih := setAll_appends h2
    rcases set_ok h1 with rfl | ⟨rfl, hm⟩
    · exact ih
    · obtain ⟨t, ht⟩ := record_zero hm
      refine Or.inr ?_
      rcases ih with rfl | ⟨t', rfl⟩
      · exact ⟨t, by rw [ht]⟩
      · exact ⟨t ++ 0 :: t', by rw [ht, List.append_assoc, List.cons_append]⟩

/-! ## The cases -/

/-- `Get` answers as before. -/
def Unchanged (pb : Proto) (file file' : List UInt8) : Prop := ∀ key, get pb none key file' = get pb none key file

/-- `Get` returns the last value of the later calls for each of their keys. -/
def Visible (pb : Proto) (later : List Data) (fileEnd : List UInt8) : Prop :=
  ∀ key value, lastValue key later = some value → get pb none key fileEnd = some (.ok value)

theorem Agrees.congr (h : ∀ key, firstValue key rs = firstValue key sets) :
    Agrees rs later ↔ Agrees sets later := by
  simp only [Agrees, firstValue_append, h]

/-- On records, later calls are visible where they agree with the first values. -/
theorem Holds.visible_iff (h : Holds pb rs file) (hl : setAll pb later file = some fileEnd) :
    Visible pb later fileEnd ↔ Agrees rs later := by
  refine forall_congr' fun key => forall_congr' fun value => imp_congr_right fun _ => ?_
  rw [(h.of_setAll hl).get_eq key, firstValue_foldl_put]
  cases firstValue key (rs ++ later) with
  | none => simp [answer]
  | some v => simp [answer]

theorem firstValue_snoc_self (kv : Data) (rs : List Data) (h : firstValue kv.key rs = none) :
    firstValue kv.key (rs ++ [kv]) = some kv.value := by
  rw [firstValue_append, h]
  simp [firstValue]

theorem firstValue_snoc (h : firstValue kv.key rs ≠ none) (key : GoString) :
    firstValue key (rs ++ [kv]) = firstValue key rs := by
  rw [firstValue_append]
  by_cases hk : key = kv.key
  · obtain ⟨value, hv⟩ := Option.ne_none_iff_exists'.mp h
    rw [hk, hv, Option.some_or]
  · simp [firstValue, hk]

/-- A whole record changes nothing if its key is there. -/
theorem Holds.unchanged_record (h : Holds pb rs file) (hm : pb.marshal kv = .ok (pb.bytes kv)) :
    Unchanged pb file (file ++ record pb kv) ↔ firstValue kv.key rs ≠ none := by
  constructor
  · intro hall hnone
    have hkey := hall kv.key
    rw [(h.append_record hm).get_eq, h.get_eq, firstValue_snoc_self kv rs hnone, hnone] at hkey
    cases Option.some.inj hkey
  · intro hne key
    rw [(h.append_record hm).get_eq, h.get_eq, firstValue_snoc hne]

/-- Some key is not there. -/
theorem exists_absent (rs : List Data) : ∃ key, firstValue key rs = none := by
  refine ⟨(rs.map Data.key).flatten ++ [0], ?_⟩
  rw [firstValue, Option.map_eq_none_iff, List.find?_eq_none]
  intro data hd hk
  have hlen := (List.sublist_flatten_of_mem (List.mem_map_of_mem (f := Data.key) hd)).length_le
  rw [← of_decide_eq_true hk, List.length_append, List.length_singleton] at hlen
  omega

/-- A record that is cut makes `Get` of a missing key fail. -/
theorem Holds.not_unchanged (h : Holds pb rs file) (hm : pb.marshal kv = .ok (pb.bytes kv)) {junk : List UInt8}
    (ht : Torn pb kv junk) : ¬ Unchanged pb file (file ++ junk) := by
  intro hall
  obtain ⟨key, hkey⟩ := exists_absent rs
  obtain ⟨fuel, hget⟩ := h.get_append key junk
  have hsame := hall key
  rw [hget, h.get_eq, hkey] at hsame
  rw [getLoop_torn hm ht] at hsame
  have hcontains : contains errUnexpectedEof (lit "does not exist") = true := by
    rw [Except.error.inj (Option.some.inj hsame)]
    exact contains_errNotExist key
  exact absurd hcontains (by decide)

/-- A length with nothing behind it changes nothing. -/
theorem Holds.unchanged_length (h : Holds pb rs file) (hm : pb.marshal kv = .ok (pb.bytes kv))
    (hne : pb.bytes kv ≠ []) : Unchanged pb file (file ++ beBytes 8 (pb.bytes kv).length) := by
  intro key
  obtain ⟨fuel, hget⟩ := h.get_append key (beBytes 8 (pb.bytes kv).length)
  rw [hget, h.get_eq]
  cases firstValue key rs with
  | some value => rfl
  | none => exact getLoop_length hm hne key fuel

/-- Only the records in front of it can be read then, whatever is appended. -/
theorem Holds.visible_length (h : Holds pb rs file) (hm : pb.marshal kv = .ok (pb.bytes kv)) (hne : pb.bytes kv ≠ [])
    (hz : ∀ bytes, ∃ err, pb.unmarshal (0 :: bytes) = .error err)
    (hl : setAll pb later (file ++ beBytes 8 (pb.bytes kv).length) = some fileEnd) :
    Visible pb later fileEnd ↔ Repeats rs later := by
  have hget : ∀ key value, get pb none key fileEnd = some (.ok value) ↔ firstValue key rs = some value := by
    intro key value
    rcases setAll_appends hl with rfl | ⟨t, rfl⟩
    · rw [h.unchanged_length hm hne key, h.get_eq]
      cases firstValue key rs with
      | none => simp [answer]
      | some v => simp [answer]
    · obtain ⟨fuel, hget⟩ := h.get_append key (beBytes 8 (pb.bytes kv).length ++ 0 :: t)
      rw [List.append_assoc, hget]
      cases firstValue key rs with
      | none => exact iff_of_false (getLoop_length_zero hm hz hne key fuel t value) (Option.some_ne_none value).symm
      | some v => simp
  exact forall_congr' fun key => forall_congr' fun value => imp_congr_right fun _ => hget key value

/-! ## The lengths tell the cases apart -/

theorem length_record (pb : Proto) (kv : Data) : (record pb kv).length = 8 + (pb.bytes kv).length := by
  rw [record, List.length_append, length_beBytes]

theorem record_ne_nil (pb : Proto) (kv : Data) : record pb kv ≠ [] := by
  apply List.length_pos_iff.mp
  rw [length_record]
  omega

theorem length_bytes_ne_nil (pb : Proto) (kv : Data) : beBytes 8 (pb.bytes kv).length ≠ [] := by
  apply List.length_pos_iff.mp
  rw [length_beBytes]
  exact Nat.succ_pos 7

/-- The length is not the whole record unless the data are empty. -/
theorem length_bytes_ne_record (hne : pb.bytes kv ≠ []) : beBytes 8 (pb.bytes kv).length ≠ record pb kv := by
  intro he
  have hlen := congrArg List.length he
  have hpos := List.length_pos_iff.mpr hne
  rw [length_record, length_beBytes] at hlen
  omega

theorem Torn.length {junk : List UInt8} (h : Torn pb kv junk) :
    junk.length ≠ 0 ∧ junk.length ≠ 8 ∧ junk.length ≠ 8 + (pb.bytes kv).length := by
  rcases h with ⟨hpos, hlt⟩ | ⟨n, hpos, hlt, rfl⟩
  · omega
  · rw [List.length_append, length_beBytes, List.length_take]
    omega

section Harmless

variable {failure : Failure}

theorem harmless_nil (h : failure.written (pb.bytes kv) = []) :
    Harmless pb failure kv sets later ↔ Agrees sets later := by
  simp only [Harmless, h, true_and, (record_ne_nil pb kv).symm, (length_bytes_ne_nil pb kv).symm, false_and,
    or_false]

theorem harmless_record (h : failure.written (pb.bytes kv) = record pb kv) :
    Harmless pb failure kv sets later ↔ firstValue kv.key sets ≠ none ∧ Agrees sets later := by
  rw [Harmless, h]
  constructor
  · rintro (⟨he, -⟩ | ⟨-, hand⟩ | ⟨he, hne, -⟩)
    · exact absurd he (record_ne_nil pb kv)
    · exact hand
    · exact absurd he.symm (length_bytes_ne_record hne)
  · exact fun hand => Or.inr (Or.inl ⟨rfl, hand⟩)

theorem harmless_length (h : failure.written (pb.bytes kv) = beBytes 8 (pb.bytes kv).length) (hne : pb.bytes kv ≠ []) :
    Harmless pb failure kv sets later ↔ Repeats sets later := by
  rw [Harmless, h]
  constructor
  · rintro (⟨he, -⟩ | ⟨he, -⟩ | ⟨-, -, hand⟩)
    · exact absurd he (length_bytes_ne_nil pb kv)
    · exact absurd he (length_bytes_ne_record hne)
    · exact hand
  · exact fun hand => Or.inr (Or.inr ⟨rfl, hne, hand⟩)

theorem not_harmless (h : Torn pb kv (failure.written (pb.bytes kv))) : ¬ Harmless pb failure kv sets later := by
  obtain ⟨h0, h8, hall⟩ := h.length
  rintro (⟨he, -⟩ | ⟨he, -⟩ | ⟨he, -⟩)
  · exact h0 (by rw [he]; rfl)
  · exact hall (by rw [he, length_record])
  · exact h8 (by rw [he, length_beBytes])

end Harmless

/-! ## All cases -/

theorem Holds.failed_iff (h : Holds pb (sets.foldl put []) file)
    (hz : ∀ bytes, ∃ err, pb.unmarshal (0 :: bytes) = .error err) {failure : Failure} {err : GoString}
    {file₀ : List UInt8} (hfail : set pb (some failure) kv file = some (.error err, file'))
    (hok : set pb none kv file = some (.ok (), file₀)) (hl : setAll pb later file' = some fileEnd) :
    (Unchanged pb file file' ∧ Visible pb later fileEnd) ↔ Harmless pb failure kv sets later := by
  have hfirst : ∀ key, firstValue key (sets.foldl put []) = firstValue key sets := fun key =>
    firstValue_foldl_put key sets []
  obtain ⟨rfl, hm⟩ := h.set_failed hfail hok
  rcases written_cases pb failure kv with hw | hw | ⟨hw, hne⟩ | ht
  · rw [harmless_nil hw]
    rw [hw, List.append_nil] at hl ⊢
    rw [h.visible_iff hl, Agrees.congr hfirst]
    exact and_iff_right fun key => rfl
  · have hm := hm (by rw [hw]; exact record_ne_nil pb kv)
    rw [harmless_record hw]
    rw [hw] at hl ⊢
    rw [h.unchanged_record hm, hfirst]
    refine and_congr_right fun hne => ?_
    rw [(h.append_record hm).visible_iff hl]
    refine Agrees.congr fun key => ?_
    rw [firstValue_snoc (by rwa [hfirst]), hfirst]
  · have hm := hm (by rw [hw]; exact length_bytes_ne_nil pb kv)
    rw [harmless_length hw hne]
    rw [hw] at hl ⊢
    rw [h.visible_length hm hne hz hl]
    simp only [Repeats, hfirst]
    exact and_iff_right (h.unchanged_length hm hne)
  · have hm := hm fun he => ht.length.1 (by rw [he]; rfl)
    exact iff_of_false (fun hand => h.not_unchanged hm ht hand.1) (not_harmless ht)

/-- **A failed `Set`** leaves the answers as they are, and later successful calls are visible, iff what has
been written is harmless for these calls. -/
theorem failed_set_iff (pb : Proto) (hz : ∀ bytes, ∃ err, pb.unmarshal (0 :: bytes) = .error err)
    (sets : List Data) (file : List UInt8) (hs : setAll pb sets [] = some file) (kv : Data) (failure : Failure)
    (err : GoString) (file' : List UInt8) (hfail : set pb (some failure) kv file = some (.error err, file'))
    (file₀ : List UInt8) (hok : set pb none kv file = some (.ok (), file₀))
    (later : List Data) (fileEnd : List UInt8) (hl : setAll pb later file' = some fileEnd) :
    (Unchanged pb file file' ∧ Visible pb later fileEnd) ↔ Harmless pb failure kv sets later :=
  (holds_setAll hs).failed_iff hz hfail hok hl

/-- All along the later calls the same is said of those that have been made. -/
theorem failed_set_prefix_iff (hz : ∀ bytes, ∃ err, pb.unmarshal (0 :: bytes) = .error err)
    (hs : setAll pb sets [] = some file) {failure : Failure} {err : GoString} {file₀ : List UInt8}
    (hfail : set pb (some failure) kv file = some (.error err, file'))
    (hok : set pb none kv file = some (.ok (), file₀)) (hl : setAll pb later file' = some fileEnd) :
    (∀ made, made <+: later → ∃ fileMid, setAll pb made file' = some fileMid ∧ Unchanged pb file file' ∧
        Visible pb made fileMid) ↔ ∀ made, made <+: later → Harmless pb failure kv sets made := by
  have hiff : ∀ made fileMid, setAll pb made file' = some fileMid →
      (Unchanged pb file file' ∧ Visible pb made fileMid ↔ Harmless pb failure kv sets made) :=
    fun _ _ hmid => (holds_setAll hs).failed_iff hz hfail hok hmid
  refine forall_congr' fun made => forall_congr' fun hmade => ?_
  obtain ⟨rest, rfl⟩ := hmade
  rw [setAll_append] at hl
  obtain ⟨fileMid, hmid, -⟩ := Option.bind_eq_some_iff.mp hl
  constructor
  · rintro ⟨fileMid', hmid', hgood⟩
    exact (hiff made fileMid' hmid').mp hgood
  · exact fun hharmless => ⟨fileMid, hmid, (hiff made fileMid hmid).mpr hharmless⟩

theorem shortUnmarshal_zero (bytes : List UInt8) : ∃ err, shortProto.unmarshal (0 :: bytes) = .error err := by
  have hread : ∀ tag : UInt8, 0 ≠ tag → readField tag (0 :: bytes) = ([], 0 :: bytes) := by
    intro tag htag
    cases bytes with
    | nil => rfl
    | cons n rest => rw [readField, if_neg fun hand => htag hand.1]
  refine ⟨lit "proto: cannot parse invalid wire-format data", ?_⟩
  show shortUnmarshal (0 :: bytes) = _
  rw [shortUnmarshal, hread 10 (by decide)]
  dsimp only
  rw [hread 18 (by decide), if_neg (List.cons_ne_nil 0 bytes)]

/-- `Sync` fails for a second value of `"a"`; then `"b"` is set. -/
theorem failed_set_iff_sample : ∃ err file file' fileEnd, setAll shortProto [setA 49] [] = some file ∧
    set shortProto (some (.sync (lit "input/output error"))) (setA 50) file = some (.error err, file') ∧
    setAll shortProto [⟨[98], [50]⟩] file' = some fileEnd ∧
    Unchanged shortProto file file' ∧ Visible shortProto [⟨[98], [50]⟩] fileEnd := by
  have hset : set shortProto (some (.sync (lit "input/output error"))) (setA 50) (record shortProto (setA 49)) =
      some (.error (lit "failed to flush data to disk: input/output error"),
        record shortProto (setA 49) ++ record shortProto (setA 50)) := by decide +kernel
  have hlater : setAll shortProto [⟨[98], [50]⟩] (record shortProto (setA 49) ++ record shortProto (setA 50)) =
      some (record shortProto (setA 49) ++ record shortProto (setA 50) ++ record shortProto ⟨[98], [50]⟩) := by
    decide +kernel
  refine ⟨_, record shortProto (setA 49), _, _, by decide +kernel, hset, hlater, ?_⟩
  refine (failed_set_iff shortProto shortUnmarshal_zero [setA 49] _ (by decide +kernel) (setA 50) _ _ _ hset
    (record shortProto (setA 49) ++ record shortProto (setA 50)) (by decide +kernel) _ _ hlater).mpr ?_
  refine Or.inr (Or.inl ⟨rfl, by decide, fun key value h => ?_⟩)
  simp only [lastValue, firstValue, List.reverse_singleton, List.find?] at h ⊢
  by_cases hk : key = [98]
  · rw [hk] at h ⊢
    exact h
  · simp [hk] at h

/-- The second `Write` fails before its first byte; then `Set("b", "2")` succeeds, and `Get("b")` fails. -/
theorem failed_set_lost : ∃ err file' fileEnd,
    set shortProto (some (.writeData 0 (lit "no space left on device"))) (setA 49) [] = some (.error err, file') ∧
    setAll shortProto [⟨[98], [50]⟩] file' = some fileEnd ∧
    ¬ Visible shortProto [⟨[98], [50]⟩] fileEnd := by
  refine ⟨lit "failed to write data: no space left on device", beBytes 8 6,
    beBytes 8 6 ++ record shortProto ⟨[98], [50]⟩, by decide +kernel, by decide +kernel, ?_⟩
  intro hall
  have hget := hall [98] [50] (by decide)
  exact absurd hget (by decide +kernel)

end Csapp.KvStore
