import Csapp.Dns.Message
import Csapp.Lib.Slice

/-!
# Dns.Parse — reading a message

The parsers thread the offset of the next byte by hand; `none` is an index or a slice out of bounds.  A name
is read as it was written (`parseLabel_at`), and so are a question and an answer with a pointer for its name
(`parseQuestion_at`, `parseAnswer_at`).  After a name that is written out the fields of an answer are read
two bytes too far on, so that it ends two bytes behind its encoding (`parseAnswer_size`).
-/

namespace Csapp.Dns

open Csapp.Lib

/-- `binary.BigEndian.Uint16(b[lo:hi])`. -/
def Uint16 (b : Slice UInt8) (lo hi : ℕ) : Option UInt16 := (b.sub lo hi).map uint16

/-- `binary.BigEndian.Uint32(b[lo:hi])`. -/
def Uint32 (b : Slice UInt8) (lo hi : ℕ) : Option UInt32 := (b.sub lo hi).map uint32

/-- The loop of `ParseLabel`, at most `n` rounds. -/
def labelLoop (b : Slice UInt8) : ℕ → List UInt8 → ℕ → Option (List UInt8 × ℕ)
  | 0, _, _ => none
  | n + 1, res, offset => do
    let c ← b.get offset
    if c = 0 then
      some (res ++ [0], offset + 1)
    else
      let label ← b.sub offset (offset + c.toNat + 1)
      labelLoop b n (res ++ label) (offset + c.toNat + 1)

def ParseLabel (b : Slice UInt8) (offset : ℕ) : Option (List UInt8 × ℕ) :=
  labelLoop b (b.data.length + 1) [] offset

def ConvPointerToOffset (b : Slice UInt8) (offset : ℕ) : Option ℕ := do
  let x ← Uint16 b offset (offset + 2)
  some (x &&& 0x3FFF).toNat

/-- The loop of `LabelToString`, at most `n` rounds. -/
def stringLoop (label : Slice UInt8) : ℕ → List UInt8 → ℕ → Option (List UInt8)
  | 0, _, _ => none
  | n + 1, res, offset => do
    let c ← label.get offset
    if c = 0 then
      some res
    else
      let res := if 0 < res.length then res ++ [0x2E] else res
      let part ← label.sub (offset + 1) (offset + c.toNat + 1)
      stringLoop label n (res ++ part) (offset + c.toNat + 1)

/-- What `append` has left behind `label` is not read: the labels end within it. -/
def LabelToString (label : List UInt8) : Option (List UInt8) := stringLoop ⟨label, []⟩ (label.length + 1) [] 0

/-- One round of `ParseDNSQuestions`. -/
def parseQuestion (b : Slice UInt8) (offset : ℕ) : Option (DNSQuestion × ℕ) := do
  let (Name, offset) ← ParseLabel b offset
  let type ← Uint16 b offset (offset + 2)
  let Class ← Uint16 b (offset + 2) (offset + 4)
  let Namestr ← LabelToString Name
  some (⟨Name, type, Class, Namestr⟩, offset + 4)

def ParseDNSQuestions (b : Slice UInt8) (header : DNSHeader) : Option (List DNSQuestion × ℕ) :=
  parseRounds (parseQuestion b) header.QCount.toNat [] 12

/-- The name of an answer and the new offset, which stays in front of a pointer. -/
def parseAnswerName (b : Slice UInt8) (offset : ℕ) : Option (List UInt8 × List UInt8 × ℕ) := do
  let c ← b.get offset
  if c &&& 0xc0 = 0xc0 then
    let labelOffset ← ConvPointerToOffset b offset
    let (name, _) ← ParseLabel b labelOffset
    let Name ← b.sub offset (offset + 2)
    let Namestr ← LabelToString name
    some (Name, Namestr, offset)
  else
    let (Name, offset) ← ParseLabel b offset
    let Namestr ← LabelToString Name
    some (Name, Namestr, offset)

/-- One round of `ParseDNSAnswers`. -/
def parseAnswer (b : Slice UInt8) (offset : ℕ) : Option (DNSAnswer × ℕ) := do
  let (Name, Namestr, offset) ← parseAnswerName b offset
  let type ← Uint16 b (offset + 2) (offset + 4)
  let Class ← Uint16 b (offset + 4) (offset + 6)
  let TTL ← Uint32 b (offset + 6) (offset + 10)
  let RDLength ← Uint16 b (offset + 10) (offset + 12)
  let RData ← b.sub (offset + 12) (offset + 12 + RDLength.toNat)
  some (⟨Name, type, Class, TTL, RDLength, RData, Namestr⟩, offset + (12 + RDLength.toNat))

def ParseDNSAnswers (b : Slice UInt8) (header : DNSHeader) (offset : ℕ) : Option (List DNSAnswer × ℕ) :=
  parseRounds (parseAnswer b) header.AnsCount.toNat [] offset

def parseHeader (b : Slice UInt8) : Option DNSHeader := do
  let ID ← Uint16 b 0 2
  let Flags ← Uint16 b 2 4
  let QCount ← Uint16 b 4 6
  let AnsCount ← Uint16 b 6 8
  let RRCount ← Uint16 b 8 10
  let AddnlRRCount ← Uint16 b 10 12
  some ⟨ID, Flags, QCount, AnsCount, RRCount, AddnlRRCount⟩

def ParseDNSResponse (b : Slice UInt8) : Option DNSMessage := do
  let header ← parseHeader b
  let (questions, offset) ← ParseDNSQuestions b header
  let (answers, _) ← ParseDNSAnswers b header offset
  some ⟨header, questions, answers⟩

/-! ## Names -/

section Names

variable {b : Slice UInt8} {labels : List Label} {n offset offset' : ℕ} {res name : List UInt8}

theorem labelLoop_end (n : ℕ) (hle : b.data.length ≤ offset) : labelLoop b n res offset = none := by
  cases n with
  | zero => rfl
  | succ n => rw [labelLoop, Slice.get, List.getElem?_eq_none hle, Option.bind_eq_bind, Option.bind_none]

/-- As many rounds as there are bytes left are enough. -/
theorem labelLoop_eq {m : ℕ} (hn : b.data.length < n + offset) (hm : b.data.length < m + offset) :
    labelLoop b n res offset = labelLoop b m res offset := by
  induction n generalizing m res offset with
  | zero => rw [labelLoop_end 0 (by omega), labelLoop_end m (by omega)]
  | succ n ih =>
    cases m with
    | zero => rw [labelLoop_end 0 (by omega), labelLoop_end (n + 1) (by omega)]
    | succ m =>
      rw [labelLoop, labelLoop]
      cases hget : b.get offset with
      | none => rfl
      | some c =>
        rw [Option.bind_eq_bind, Option.bind_some, Option.bind_eq_bind, Option.bind_some]
        by_cases h0 : c = 0
        · rw [if_pos h0, if_pos h0]
        · rw [if_neg h0, if_neg h0]
          cases hsub : b.sub offset (offset + c.toNat + 1) with
          | none => rfl
          | some label =>
            rw [Option.bind_some, Option.bind_some]
            exact ih (by omega) (by omega)

theorem labelLoop_at (hn : labels.length < n) (h : b.At offset (encodeName labels)) :
    labelLoop b n res offset = some (res ++ encodeName labels, offset + (encodeName labels).length) := by
  induction labels generalizing n res offset with
  | nil =>
    cases n with
    | zero => exact absurd hn (Nat.not_lt_zero _)
    | succ n =>
      rw [labelLoop, h.get]
      rfl
  | cons l labels ih =>
    cases n with
    | zero => exact absurd hn (Nat.not_lt_zero _)
    | succ n =>
      rw [encodeName_cons] at h ⊢
      have hget : b.get offset = some (UInt8.ofNat l.bytes.length) := h.left.get
      have hsub : b.sub offset (offset + l.bytes.length + 1) = some l.encode := h.left.sub
      have hrest : b.At (offset + l.bytes.length + 1) (encodeName labels) := h.right
      rw [labelLoop, hget, Option.bind_eq_bind, Option.bind_some, if_neg l.length_byte_ne_zero, l.length_byte,
        hsub, Option.bind_eq_bind, Option.bind_some, ih (Nat.lt_of_succ_lt_succ hn) hrest, List.append_assoc,
        List.length_append, l.length_encode, ← Nat.add_assoc, ← Nat.add_assoc]

/-- A name is read as it was written. -/
theorem parseLabel_at (h : b.At offset (encodeName labels)) :
    ParseLabel b offset = some (encodeName labels, offset + (encodeName labels).length) := by
  have hle := h.le
  have hlt := length_lt_encodeName labels
  exact labelLoop_at (by omega) h

/-- Whatever is read as a name is one. -/
theorem labelLoop_name (h : labelLoop b n res offset = some (name, offset')) :
    ∃ labels, name = res ++ encodeName labels ∧ offset' = offset + (encodeName labels).length := by
  induction n generalizing res offset with
  | zero => cases h
  | succ n ih =>
    rw [labelLoop] at h
    obtain ⟨c, hc, h⟩ := Option.bind_eq_some_iff.mp h
    by_cases h0 : c = 0
    · rw [if_pos h0] at h
      obtain ⟨rfl, rfl⟩ := Prod.mk.inj (Option.some.inj h)
      exact ⟨[], rfl, rfl⟩
    · rw [if_neg h0] at h
      obtain ⟨label, hlabel, h⟩ := Option.bind_eq_some_iff.mp h
      obtain ⟨t, rfl⟩ := Slice.sub_cons hc hlabel (by omega)
      have hlen := (Slice.sub_length hlabel).1
      obtain ⟨labels, rfl, rfl⟩ := ih h
      have ht : t.length = c.toNat := by
        rw [List.length_cons] at hlen
        omega
      have hpos : 0 < c.toNat := Nat.pos_of_ne_zero fun he => h0 (UInt8.toNat_inj.mp he)
      have hlt := c.toNat_lt
      obtain ⟨l, hencode⟩ : ∃ l : Label, l.encode = c :: t := by
        refine ⟨⟨t, by omega, by omega⟩, ?_⟩
        show UInt8.ofNat t.length :: t = c :: t
        rw [ht, UInt8.ofNat_toNat]
      refine ⟨l :: labels, ?_, ?_⟩
      · rw [encodeName_cons, hencode, List.append_assoc]
      · rw [encodeName_cons, hencode, List.length_append, List.length_cons]
        omega

theorem stringLoop_at {label : Slice UInt8} (hn : labels.length < n) (h : label.At offset (encodeName labels)) :
    stringLoop label n res offset =
      some (if res = [] then dotted labels else res ++ labels.flatMap fun l => 0x2e :: l.bytes) := by
  induction labels generalizing n res offset with
  | nil =>
    cases n with
    | zero => exact absurd hn (Nat.not_lt_zero _)
    | succ n =>
      rw [stringLoop, h.get, List.flatMap_nil, List.append_nil, dotted_nil]
      by_cases hres : res = []
      · rw [if_pos hres, hres]
        rfl
      · rw [if_neg hres]
        rfl
  | cons l labels ih =>
    cases n with
    | zero => exact absurd hn (Nat.not_lt_zero _)
    | succ n =>
      rw [encodeName_cons] at h
      have hget : label.get offset = some (UInt8.ofNat l.bytes.length) := h.left.get
      have hbytes : label.At (offset + 1) l.bytes := (show label.At offset ([_] ++ l.bytes) from h.left).right
      have hsub : label.sub (offset + 1) (offset + l.bytes.length + 1) = some l.bytes := by
        rw [Nat.add_right_comm]
        exact hbytes.sub
      have hrest : label.At (offset + l.bytes.length + 1) (encodeName labels) := h.right
      rw [stringLoop, hget, Option.bind_eq_bind, Option.bind_some, if_neg l.length_byte_ne_zero, l.length_byte]
      dsimp only
      rw [hsub, Option.bind_eq_bind, Option.bind_some, ih (Nat.lt_of_succ_lt_succ hn) hrest,
        if_neg (List.append_ne_nil_of_right_ne_nil _ l.bytes_ne_nil), dotted_cons, List.flatMap_cons]
      by_cases hres : res = []
      · subst hres
        rfl
      · rw [if_pos (List.length_pos_iff.mpr hres), if_neg hres]
        simp only [List.append_assoc, List.cons_append, List.nil_append]

theorem LabelToString_encodeName (labels : List Label) :
    LabelToString (encodeName labels) = some (dotted labels) := by
  have hat : (⟨encodeName labels, []⟩ : Slice UInt8).At 0 (encodeName labels) :=
    ⟨[], [], (List.append_nil _).symm, rfl⟩
  exact stringLoop_at (Nat.lt_succ_of_lt (length_lt_encodeName labels)) hat

end Names

/-! ## Records -/

section Records

variable {b : Slice UInt8} {offset offset' : ℕ} {labels : List Label}

theorem Uint16_at {x : UInt16} (h : b.At offset (be16 x)) : Uint16 b offset (offset + 2) = some x := by
  have hsub : b.sub offset (offset + 2) = some (be16 x) := h.sub
  rw [Uint16, hsub, Option.map_some, uint16_be16]

theorem Uint32_at {x : UInt32} (h : b.At offset (be32 x)) : Uint32 b offset (offset + 4) = some x := by
  have hsub : b.sub offset (offset + 4) = some (be32 x) := h.sub
  rw [Uint32, hsub, Option.map_some, uint32_be32]

theorem parseHeader_at {header : DNSHeader} (h : b.At 0 header.encode) : parseHeader b = some header := by
  have h1 : Uint16 b 0 2 = some header.ID := Uint16_at h.left.left.left.left.left
  have h2 : Uint16 b 2 4 = some header.Flags := Uint16_at h.left.left.left.left.right
  have h3 : Uint16 b 4 6 = some header.QCount := Uint16_at h.left.left.left.right
  have h4 : Uint16 b 6 8 = some header.AnsCount := Uint16_at h.left.left.right
  have h5 : Uint16 b 8 10 = some header.RRCount := Uint16_at h.left.right
  have h6 : Uint16 b 10 12 = some header.AddnlRRCount := Uint16_at h.right
  simp only [parseHeader, h1, h2, h3, h4, h5, h6, Option.bind_eq_bind, Option.bind_some]

/-- A question is read as it was written. -/
theorem parseQuestion_at {q : DNSQuestion} (hname : q.Name = encodeName labels) (h : b.At offset q.encode) :
    parseQuestion b offset = some ({ q with Namestr := dotted labels }, offset + q.encode.length) := by
  have hn : b.At offset (encodeName labels) := hname ▸ h.left.left
  have h1 := Uint16_at h.left.right
  have h2 : Uint16 b (offset + q.Name.length + 2) (offset + q.Name.length + 4) = some q.Class := by
    refine Uint16_at ?_
    have hright := h.right
    rwa [List.length_append, length_be16, ← Nat.add_assoc] at hright
  have hlen : offset + q.encode.length = offset + q.Name.length + 4 := by
    simp only [DNSQuestion.encode, List.length_append, length_be16, Nat.add_assoc]
  rw [hname] at h1 h2 hlen
  simp only [parseQuestion, parseLabel_at hn, h1, h2, LabelToString_encodeName, Option.bind_eq_bind,
    Option.bind_some, hname, hlen]

theorem and_of_192_le {c : UInt8} (h : 192 ≤ c.toNat) : c &&& 0xc0 = 0xc0 := by
  have hall : ∀ n < 256, 192 ≤ n → n &&& 192 = 192 := by decide +kernel
  exact UInt8.toNat_inj.mp ((UInt8.toNat_and c 0xc0).trans (hall c.toNat c.toNat_lt h))

/-- A name that is a pointer is read at the offset that it points to. -/
theorem parseAnswerName_at {o : ℕ} (ho : o < 2 ^ 14) (h : b.At offset (pointer o))
    (hname : b.At o (encodeName labels)) : parseAnswerName b offset = some (pointer o, dotted labels, offset) := by
  have hx : (UInt16.ofNat (0xc000 + o)).toNat = 0xc000 + o :=
    UInt16.toNat_ofNat_of_lt' (show 0xc000 + o < 2 ^ 16 by omega)
  have hget : b.get offset = some (UInt8.ofNat ((0xc000 + o) / 256)) := by
    rw [pointer, be16, hx] at h
    exact h.get
  have hbits : UInt8.ofNat ((0xc000 + o) / 256) &&& 0xc0 = 0xc0 := by
    refine and_of_192_le ?_
    rw [UInt8.toNat_ofNat_of_lt' (show (0xc000 + o) / 256 < 2 ^ 8 by omega)]
    omega
  have hoffset : ConvPointerToOffset b offset = some o := by
    have hand : (0xc000 + o) &&& 0x3FFF = o := by
      rw [show 0x3FFF = 2 ^ 14 - 1 from rfl, Nat.and_two_pow_sub_one_eq_mod]
      omega
    rw [ConvPointerToOffset, Uint16_at h, Option.bind_eq_bind, Option.bind_some, UInt16.toNat_and, hx]
    exact congrArg some hand
  have hsub : b.sub offset (offset + 2) = some (pointer o) := h.sub
  simp only [parseAnswerName, hget, hbits, if_true, hoffset, parseLabel_at hname, hsub, LabelToString_encodeName,
    Option.bind_eq_bind, Option.bind_some]

/-- An answer whose name is a pointer is read as it was written. -/
theorem parseAnswer_at {a : DNSAnswer} {o : ℕ} (ho : o < 2 ^ 14) (ha : a.Name = pointer o)
    (hrd : a.RDLength.toNat = a.RData.length) (hname : b.At o (encodeName labels)) (h : b.At offset a.encode) :
    parseAnswer b offset = some ({ a with Namestr := dotted labels }, offset + a.encode.length) := by
  have hlen : a.encode.length = 12 + a.RDLength.toNat := by
    rw [a.length_encode, ha, length_pointer, hrd]
  rw [DNSAnswer.encode, ha] at h
  have hn := parseAnswerName_at ho h.left.left.left.left.left hname
  have h1 : Uint16 b (offset + 2) (offset + 4) = some a.type := Uint16_at h.left.left.left.left.right
  have h2 : Uint16 b (offset + 4) (offset + 6) = some a.Class := Uint16_at h.left.left.left.right
  have h3 : Uint32 b (offset + 6) (offset + 10) = some a.TTL := Uint32_at h.left.left.right
  have h4 : Uint16 b (offset + 10) (offset + 12) = some a.RDLength := Uint16_at h.left.right
  have h5 : b.sub (offset + 12) (offset + 12 + a.RDLength.toNat) = some a.RData := by
    rw [hrd]
    exact h.right.sub
  simp only [parseAnswer, hn, h1, h2, h3, h4, h5, hlen, ha, Option.bind_eq_bind, Option.bind_some]

/-- The type of an answer whose name is written out is read where its class stands. -/
theorem parseAnswer_type {a a' : DNSAnswer} {c : UInt8} (hc : b.get offset = some c) (hbits : c &&& 0xc0 ≠ 0xc0)
    (ha : a.Name = encodeName labels) (h : b.At offset a.encode)
    (hp : parseAnswer b offset = some (a', offset')) : a'.type = a.Class := by
  have hn : b.At offset (encodeName labels) := ha ▸ h.left.left.left.left.left
  have hname : parseAnswerName b offset =
      some (encodeName labels, dotted labels, offset + (encodeName labels).length) := by
    simp only [parseAnswerName, hc, hbits, if_false, parseLabel_at hn, LabelToString_encodeName,
      Option.bind_eq_bind, Option.bind_some]
  have hclass : Uint16 b (offset + a.Name.length + 2) (offset + a.Name.length + 4) = some a.Class := by
    refine Uint16_at ?_
    have hright := h.left.left.left.right
    rwa [List.length_append, length_be16, ← Nat.add_assoc] at hright
  rw [parseAnswer, hname, Option.bind_eq_bind, Option.bind_some] at hp
  obtain ⟨type, htype, hp⟩ := Option.bind_eq_some_iff.mp hp
  obtain ⟨Class, -, hp⟩ := Option.bind_eq_some_iff.mp hp
  obtain ⟨TTL, -, hp⟩ := Option.bind_eq_some_iff.mp hp
  obtain ⟨RDLength, -, hp⟩ := Option.bind_eq_some_iff.mp hp
  obtain ⟨RData, -, hp⟩ := Option.bind_eq_some_iff.mp hp
  obtain ⟨rfl, -⟩ := Prod.mk.inj (Option.some.inj hp)
  rw [← ha, hclass] at htype
  exact (Option.some.inj htype).symm

/-- Where the reading goes on after the name of an answer, which is two bytes too far for a written name. -/
theorem parseAnswerName_size {Name Namestr : List UInt8}
    (h : parseAnswerName b offset = some (Name, Namestr, offset')) :
    offset' + 2 = offset + Name.length + if Name.length = 2 then 0 else 2 := by
  obtain ⟨c, -, h⟩ := Option.bind_eq_some_iff.mp h
  by_cases hc : c &&& 0xc0 = 0xc0
  · rw [if_pos hc] at h
    obtain ⟨labelOffset, -, h⟩ := Option.bind_eq_some_iff.mp h
    obtain ⟨⟨name, o⟩, -, h⟩ := Option.bind_eq_some_iff.mp h
    obtain ⟨Name', hsub, h⟩ := Option.bind_eq_some_iff.mp h
    obtain ⟨Namestr', -, h⟩ := Option.bind_eq_some_iff.mp h
    obtain ⟨rfl, hrest⟩ := Prod.mk.inj (Option.some.inj h)
    obtain ⟨-, rfl⟩ := Prod.mk.inj hrest
    have hlen := (Slice.sub_length hsub).1
    rw [if_pos (by omega)]
    omega
  · rw [if_neg hc] at h
    obtain ⟨⟨Name', o⟩, hlabel, h⟩ := Option.bind_eq_some_iff.mp h
    obtain ⟨Namestr', -, h⟩ := Option.bind_eq_some_iff.mp h
    obtain ⟨rfl, hrest⟩ := Prod.mk.inj (Option.some.inj h)
    obtain ⟨-, rfl⟩ := Prod.mk.inj hrest
    obtain ⟨labels, rfl, rfl⟩ := labelLoop_name hlabel
    rw [List.nil_append, if_neg (length_encodeName_ne labels)]

/-- The number of bytes that an answer has been read from. -/
def answerSize (a : DNSAnswer) : ℕ :=
  a.Name.length + 10 + a.RDLength.toNat + if a.Name.length = 2 then 0 else 2

theorem parseAnswer_size {a : DNSAnswer} (h : parseAnswer b offset = some (a, offset')) :
    offset' = offset + answerSize a ∧ offset' ≤ b.data.length + b.spare.length := by
  obtain ⟨⟨Name, Namestr, o⟩, hname, h⟩ := Option.bind_eq_some_iff.mp h
  obtain ⟨type, -, h⟩ := Option.bind_eq_some_iff.mp h
  obtain ⟨Class, -, h⟩ := Option.bind_eq_some_iff.mp h
  obtain ⟨TTL, -, h⟩ := Option.bind_eq_some_iff.mp h
  obtain ⟨RDLength, -, h⟩ := Option.bind_eq_some_iff.mp h
  obtain ⟨RData, hsub, h⟩ := Option.bind_eq_some_iff.mp h
  obtain ⟨rfl, rfl⟩ := Prod.mk.inj (Option.some.inj h)
  have hsize := parseAnswerName_size hname
  have hcap := (Slice.sub_length hsub).2
  refine ⟨?_, by omega⟩
  rw [answerSize]
  dsimp only
  omega

end Records

end Csapp.Dns
