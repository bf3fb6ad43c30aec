import Csapp.Dns.Parse

/-!
# Dns.Bounds — what can be parsed without leaving the message

The parser checks no length, count or pointer.  It stays inside of the message if and only if what they announce
lies in the message as the parser reads it (`LaidOut`): a name is labels up to a zero byte, never a pointer behind
labels, and a pointer stands for the name of an answer as a whole.
-/

namespace Csapp.Dns

open Csapp.Lib

variable {b : List UInt8} {offset offset' : ℕ}

/-- The two bytes at `i`. -/
def word (b : List UInt8) (i : ℕ) : ℕ := (b.getD i 0).toNat * 256 + (b.getD (i + 1) 0).toNat

/-- Labels stand at the offset, and a zero byte in front of the other one. -/
inductive LabelsTo (b : List UInt8) : ℕ → ℕ → Prop
  | nil {o : ℕ} : b[o]? = some 0 → LabelsTo b o (o + 1)
  | cons {o o' : ℕ} {x : UInt8} : b[o]? = some x → x ≠ 0 → LabelsTo b (o + x.toNat + 1) o' → LabelsTo b o o'

/-- A name, its type and its class. -/
def QuestionTo (b : List UInt8) (offset offset' : ℕ) : Prop :=
  ∃ o, LabelsTo b offset o ∧ offset' = o + 4 ∧ o + 4 ≤ b.length

/-- The name of an answer: a pointer to labels, behind which the parser stays in front, or labels. -/
def NameTo (b : List UInt8) (offset offset' : ℕ) : Prop :=
  ∃ x, b[offset]? = some x ∧
    if x &&& 0xc0 = 0xc0 then
      offset + 2 ≤ b.length ∧ (∃ o, LabelsTo b (word b offset % 2 ^ 14) o) ∧ offset' = offset
    else LabelsTo b offset offset'

/-- A name, and the other fields two bytes behind the new offset; the data has the length in the last of them. -/
def AnswerTo (b : List UInt8) (offset offset' : ℕ) : Prop :=
  ∃ o, NameTo b offset o ∧ offset' = o + 12 + word b (o + 10) ∧ offset' ≤ b.length

/-- A header, and as many questions and answers as it says. -/
def LaidOut (b : List UInt8) : Prop :=
  12 ≤ b.length ∧ ∃ o o', Rounds (QuestionTo b) (word b 4) 12 o ∧ Rounds (AnswerTo b) (word b 6) o o'

/-! ## Fields -/

theorem exists_Uint16 {i j : ℕ} (hj : i + 2 = j) (hle : j ≤ b.length) :
    ∃ x, Uint16 ⟨b, []⟩ i j = some x ∧ x.toNat = word b i := by
  have hi : i < b.length := by omega
  have hi' : i + 1 < b.length := by omega
  have hsplit : (b.take j).drop i = [b[i], b[i + 1]] := by
    rw [List.drop_take, List.drop_eq_getElem_cons hi, List.drop_eq_getElem_cons hi', show j - i = 2 by omega]
    rfl
  refine ⟨_, by rw [Uint16, Slice.sub_eq_some.mpr ⟨by omega, hle, hsplit⟩, Option.map_some], ?_⟩
  rw [toNat_uint16_pair, word, List.getD_eq_getElem?_getD, List.getD_eq_getElem?_getD, List.getElem?_eq_getElem hi,
    List.getElem?_eq_getElem hi', Option.getD_some, Option.getD_some]

theorem Uint16_eq_some {x : UInt16} {i j : ℕ} (hj : i + 2 = j) (h : Uint16 ⟨b, []⟩ i j = some x) :
    j ≤ b.length ∧ x.toNat = word b i := by
  obtain ⟨l, hl, -⟩ := Option.map_eq_some_iff.mp h
  have hle := (Slice.sub_eq_some.mp hl).2.1
  obtain ⟨x', hx', hword⟩ := exists_Uint16 hj hle
  obtain rfl := Option.some.inj (hx'.symm.trans h)
  exact ⟨hle, hword⟩

theorem exists_Uint32 {i j : ℕ} (hj : i + 4 = j) (hle : j ≤ b.length) : ∃ x, Uint32 ⟨b, []⟩ i j = some x := by
  have hsub := Slice.sub_eq_some.mpr ⟨show i ≤ j by omega, hle, rfl⟩
  exact ⟨_, by rw [Uint32, hsub, Option.map_some]⟩

/-! ## Names -/

theorem LabelsTo.le (h : LabelsTo b offset offset') : offset < offset' ∧ offset' ≤ b.length := by
  induction h with
  | nil hx =>
    obtain ⟨hlt, -⟩ := List.getElem?_eq_some_iff.mp hx
    omega
  | cons hx h0 _ ih => omega

theorem labelLoop_iff {n : ℕ} (hn : b.length < n + offset) (res : List UInt8) :
    (∃ name, labelLoop ⟨b, []⟩ n res offset = some (name, offset')) ↔ LabelsTo b offset offset' := by
  induction n generalizing res offset with
  | zero =>
    refine iff_of_false ?_ ?_
    · rintro ⟨name, h⟩
      cases h
    · intro h
      have hle := h.le
      omega
  | succ n ih =>
    rw [labelLoop]
    constructor
    · rintro ⟨name, h⟩
      obtain ⟨x, hx, h⟩ := Option.bind_eq_some_iff.mp h
      by_cases h0 : x = 0
      · rw [if_pos h0] at h
        obtain ⟨-, rfl⟩ := Prod.mk.inj (Option.some.inj h)
        exact .nil (h0 ▸ hx)
      · rw [if_neg h0] at h
        obtain ⟨label, -, h⟩ := Option.bind_eq_some_iff.mp h
        exact .cons hx h0 ((ih (by omega) _).mp ⟨name, h⟩)
    · intro h
      cases h with
      | nil hx =>
        have hget : (Slice.mk b []).get offset = some 0 := hx
        exact ⟨_, by rw [hget, Option.bind_eq_bind, Option.bind_some, if_pos rfl]⟩
      | @cons _ _ x hx h0 h =>
        have hget : (Slice.mk b []).get offset = some x := hx
        have hle := h.le
        have hsub := Slice.sub_eq_some.mpr ⟨show offset ≤ offset + x.toNat + 1 by omega,
          show offset + x.toNat + 1 ≤ b.length by omega, rfl⟩
        obtain ⟨name, hname⟩ := (ih (by omega) (res ++ (b.take (offset + x.toNat + 1)).drop offset)).mpr h
        exact ⟨name, by rw [hget, Option.bind_eq_bind, Option.bind_some, if_neg h0, hsub, Option.bind_eq_bind,
          Option.bind_some, hname]⟩

theorem parseLabel_iff : (∃ name, ParseLabel ⟨b, []⟩ offset = some (name, offset')) ↔ LabelsTo b offset offset' := by
  refine labelLoop_iff ?_ []
  dsimp only
  omega

/-- Whatever is read as a name can be written in dots. -/
theorem labelToString_of_parse {name : List UInt8} (h : ParseLabel ⟨b, []⟩ offset = some (name, offset')) :
    ∃ s, LabelToString name = some s := by
  obtain ⟨labels, rfl, -⟩ := labelLoop_name h
  exact ⟨dotted labels, LabelToString_encodeName labels⟩

/-! ## Records -/

theorem parseQuestion_iff (offset offset' : ℕ) :
    (∃ q, parseQuestion ⟨b, []⟩ offset = some (q, offset')) ↔ QuestionTo b offset offset' := by
  constructor
  · rintro ⟨q, h⟩
    obtain ⟨⟨name, o⟩, hname, h⟩ := Option.bind_eq_some_iff.mp h
    obtain ⟨type, -, h⟩ := Option.bind_eq_some_iff.mp h
    obtain ⟨Class, hclass, h⟩ := Option.bind_eq_some_iff.mp h
    obtain ⟨Namestr, -, h⟩ := Option.bind_eq_some_iff.mp h
    obtain ⟨-, rfl⟩ := Prod.mk.inj (Option.some.inj h)
    exact ⟨o, parseLabel_iff.mp ⟨name, hname⟩, rfl, (Uint16_eq_some (by omega) hclass).1⟩
  · rintro ⟨o, hlabels, rfl, hle⟩
    obtain ⟨name, hname⟩ := parseLabel_iff.mpr hlabels
    obtain ⟨Namestr, hstr⟩ := labelToString_of_parse hname
    obtain ⟨type, htype, -⟩ := exists_Uint16 (b := b) (i := o) rfl (by omega)
    obtain ⟨Class, hclass, -⟩ := exists_Uint16 (b := b) (i := o + 2) (j := o + 4) rfl hle
    refine ⟨⟨name, type, Class, Namestr⟩, ?_⟩
    simp only [parseQuestion, hname, htype, hclass, hstr, Option.bind_eq_bind, Option.bind_some]

theorem convPointer_eq (hle : offset + 2 ≤ b.length) :
    ConvPointerToOffset ⟨b, []⟩ offset = some (word b offset % 2 ^ 14) := by
  obtain ⟨x, hx, hword⟩ := exists_Uint16 (b := b) (i := offset) rfl hle
  have hmask : (0x3FFF : UInt16).toNat = 2 ^ 14 - 1 := rfl
  rw [ConvPointerToOffset, hx, Option.bind_eq_bind, Option.bind_some, UInt16.toNat_and, hmask,
    Nat.and_two_pow_sub_one_eq_mod, hword]

theorem parseAnswerName_iff (offset offset' : ℕ) :
    (∃ Name Namestr, parseAnswerName ⟨b, []⟩ offset = some (Name, Namestr, offset')) ↔ NameTo b offset offset' := by
  constructor
  · rintro ⟨Name, Namestr, h⟩
    obtain ⟨x, hx, h⟩ := Option.bind_eq_some_iff.mp h
    refine ⟨x, hx, ?_⟩
    by_cases hbits : x &&& 0xc0 = 0xc0
    · rw [if_pos hbits] at h ⊢
      obtain ⟨labelOffset, hoffset, h⟩ := Option.bind_eq_some_iff.mp h
      obtain ⟨⟨name, o⟩, hname, h⟩ := Option.bind_eq_some_iff.mp h
      obtain ⟨Name', hsub, h⟩ := Option.bind_eq_some_iff.mp h
      obtain ⟨Namestr', -, h⟩ := Option.bind_eq_some_iff.mp h
      obtain ⟨-, hrest⟩ := Prod.mk.inj (Option.some.inj h)
      obtain ⟨-, rfl⟩ := Prod.mk.inj hrest
      have hle := (Slice.sub_eq_some.mp hsub).2.1
      rw [convPointer_eq hle] at hoffset
      obtain rfl := Option.some.inj hoffset
      exact ⟨hle, ⟨o, parseLabel_iff.mp ⟨name, hname⟩⟩, rfl⟩
    · rw [if_neg hbits] at h ⊢
      obtain ⟨⟨name, o⟩, hname, h⟩ := Option.bind_eq_some_iff.mp h
      obtain ⟨Namestr', -, h⟩ := Option.bind_eq_some_iff.mp h
      obtain ⟨-, hrest⟩ := Prod.mk.inj (Option.some.inj h)
      obtain ⟨-, rfl⟩ := Prod.mk.inj hrest
      exact parseLabel_iff.mp ⟨name, hname⟩
  · rintro ⟨x, hx, h⟩
    have hget : (Slice.mk b []).get offset = some x := hx
    by_cases hbits : x &&& 0xc0 = 0xc0
    · rw [if_pos hbits] at h
      obtain ⟨hle, ⟨o, hlabels⟩, rfl⟩ := h
      obtain ⟨name, hname⟩ := parseLabel_iff.mpr hlabels
      obtain ⟨Namestr, hstr⟩ := labelToString_of_parse hname
      have hsub := Slice.sub_eq_some.mpr ⟨Nat.le_add_right offset' 2, hle, rfl⟩
      refine ⟨(b.take (offset' + 2)).drop offset', Namestr, ?_⟩
      simp only [parseAnswerName, hget, hbits, if_true, convPointer_eq hle, hname, hsub, hstr, Option.bind_eq_bind,
        Option.bind_some]
    · rw [if_neg hbits] at h
      obtain ⟨name, hname⟩ := parseLabel_iff.mpr h
      obtain ⟨Namestr, hstr⟩ := labelToString_of_parse hname
      exact ⟨name, Namestr, by simp only [parseAnswerName, hget, hbits, if_false, hname, hstr, Option.bind_eq_bind,
        Option.bind_some]⟩

theorem parseAnswer_iff (offset offset' : ℕ) :
    (∃ a, parseAnswer ⟨b, []⟩ offset = some (a, offset')) ↔ AnswerTo b offset offset' := by
  constructor
  · rintro ⟨a, h⟩
    obtain ⟨⟨Name, Namestr, o⟩, hname, h⟩ := Option.bind_eq_some_iff.mp h
    obtain ⟨type, -, h⟩ := Option.bind_eq_some_iff.mp h
    obtain ⟨Class, -, h⟩ := Option.bind_eq_some_iff.mp h
    obtain ⟨TTL, -, h⟩ := Option.bind_eq_some_iff.mp h
    obtain ⟨RDLength, hrd, h⟩ := Option.bind_eq_some_iff.mp h
    obtain ⟨RData, hsub, h⟩ := Option.bind_eq_some_iff.mp h
    obtain ⟨-, rfl⟩ := Prod.mk.inj (Option.some.inj h)
    have hword := (Uint16_eq_some (by omega) hrd).2
    have hle := (Slice.sub_eq_some.mp hsub).2.1
    refine ⟨o, (parseAnswerName_iff offset o).mp ⟨Name, Namestr, hname⟩, ?_, ?_⟩
    · rw [← hword, Nat.add_assoc]
    · rw [← Nat.add_assoc]
      exact hle
  · rintro ⟨o, hn, rfl, hle⟩
    obtain ⟨Name, Namestr, hname⟩ := (parseAnswerName_iff offset o).mpr hn
    obtain ⟨type, htype, -⟩ := exists_Uint16 (b := b) (i := o + 2) (j := o + 4) rfl (by omega)
    obtain ⟨Class, hclass, -⟩ := exists_Uint16 (b := b) (i := o + 4) (j := o + 6) rfl (by omega)
    obtain ⟨TTL, httl⟩ := exists_Uint32 (b := b) (i := o + 6) (j := o + 10) rfl (by omega)
    obtain ⟨RDLength, hrd, hword⟩ := exists_Uint16 (b := b) (i := o + 10) (j := o + 12) rfl (by omega)
    rw [← hword] at hle ⊢
    have hsub := Slice.sub_eq_some.mpr ⟨Nat.le_add_right (o + 12) RDLength.toNat, hle, rfl⟩
    refine ⟨⟨Name, type, Class, TTL, RDLength, (b.take (o + 12 + RDLength.toNat)).drop (o + 12), Namestr⟩, ?_⟩
    simp only [parseAnswer, hname, htype, hclass, httl, hrd, hsub, Option.bind_eq_bind, Option.bind_some]
    rw [Nat.add_assoc]

/-! ## Messages -/

theorem exists_header (h : 12 ≤ b.length) : ∃ header, parseHeader ⟨b, []⟩ = some header ∧
    header.QCount.toNat = word b 4 ∧ header.AnsCount.toNat = word b 6 := by
  obtain ⟨id, h1, -⟩ := exists_Uint16 (b := b) (i := 0) (j := 2) rfl (by omega)
  obtain ⟨flags, h2, -⟩ := exists_Uint16 (b := b) (i := 2) (j := 4) rfl (by omega)
  obtain ⟨qCount, h3, hq⟩ := exists_Uint16 (b := b) (i := 4) (j := 6) rfl (by omega)
  obtain ⟨ansCount, h4, ha⟩ := exists_Uint16 (b := b) (i := 6) (j := 8) rfl (by omega)
  obtain ⟨rrCount, h5, -⟩ := exists_Uint16 (b := b) (i := 8) (j := 10) rfl (by omega)
  obtain ⟨addnlRRCount, h6, -⟩ := exists_Uint16 (b := b) (i := 10) (j := 12) rfl h
  refine ⟨⟨id, flags, qCount, ansCount, rrCount, addnlRRCount⟩, ?_, hq, ha⟩
  simp only [parseHeader, h1, h2, h3, h4, h5, h6, Option.bind_eq_bind, Option.bind_some]

theorem header_le {header : DNSHeader} (h : parseHeader ⟨b, []⟩ = some header) : 12 ≤ b.length := by
  obtain ⟨_, -, h⟩ := Option.bind_eq_some_iff.mp h
  obtain ⟨_, -, h⟩ := Option.bind_eq_some_iff.mp h
  obtain ⟨_, -, h⟩ := Option.bind_eq_some_iff.mp h
  obtain ⟨_, -, h⟩ := Option.bind_eq_some_iff.mp h
  obtain ⟨_, -, h⟩ := Option.bind_eq_some_iff.mp h
  obtain ⟨_, hlast, -⟩ := Option.bind_eq_some_iff.mp h
  exact (Uint16_eq_some (by omega) hlast).1

/-- **Parsing** stays inside of the bytes that were received if and only if what they announce is laid out in them. -/
theorem parseResponse_iff (b : List UInt8) : (∃ m, ParseDNSResponse ⟨b, []⟩ = some m) ↔ LaidOut b := by
  constructor
  · rintro ⟨m, h⟩
    obtain ⟨header, hheader, h⟩ := Option.bind_eq_some_iff.mp h
    have hle := header_le hheader
    obtain ⟨header', hheader', hq, ha⟩ := exists_header hle
    obtain rfl := Option.some.inj (hheader'.symm.trans hheader)
    obtain ⟨⟨questions, o⟩, hquestions, h⟩ := Option.bind_eq_some_iff.mp h
    obtain ⟨⟨answers, o'⟩, hanswers, -⟩ := Option.bind_eq_some_iff.mp h
    refine ⟨hle, o, o', ?_, ?_⟩
    · rw [← hq]
      exact (parseRounds_iff parseQuestion_iff _ [] 12 o).mp ⟨questions, hquestions⟩
    · rw [← ha]
      exact (parseRounds_iff parseAnswer_iff _ [] o o').mp ⟨answers, hanswers⟩
  · rintro ⟨hle, o, o', hq, ha⟩
    obtain ⟨header, hheader, hqcount, hanscount⟩ := exists_header hle
    rw [← hqcount] at hq
    rw [← hanscount] at ha
    obtain ⟨questions, hquestions⟩ := (parseRounds_iff parseQuestion_iff _ [] 12 o).mpr hq
    obtain ⟨answers, hanswers⟩ := (parseRounds_iff parseAnswer_iff _ [] o o').mpr ha
    refine ⟨⟨header, questions, answers⟩, ?_⟩
    simp only [ParseDNSResponse, hheader, ParseDNSQuestions, hquestions, ParseDNSAnswers, hanswers,
      Option.bind_eq_bind, Option.bind_some]

/-- A question for `a` and an answer for `b.a`, its name a label and a pointer to the name of the question, in the
buffer of 200 bytes that `send` receives into. -/
def compressedResponse : List UInt8 :=
  [0, 1, 0x81, 0x80, 0, 1, 0, 1, 0, 0, 0, 0, 1, 0x61, 0, 0, 1, 0, 1,
    1, 0x62, 0xc0, 0x0c, 0, 1, 0, 1, 0, 0, 0, 60, 0, 4, 93, 184, 216, 34] ++ List.replicate 163 0

/-- The pointer is taken for a label of 192 bytes, which ends behind the buffer. -/
theorem compressed_not_parsed : ¬ ∃ m, ParseDNSResponse ⟨compressedResponse, []⟩ = some m := by
  have hnone : ParseDNSResponse ⟨compressedResponse, []⟩ = none := by decide +kernel
  rintro ⟨m, hm⟩
  cases hnone.symm.trans hm

end Csapp.Dns
