import Csapp.Dns.Parse

/-!
# Dns.RoundTrip — parsing a message that was encoded

The questions of a message are read back in any case (`ParseDNSResponse_encode`), and so is an answer whose
name is a pointer.  Each answer whose name is written out is read from two bytes more than it has, which the
encoding does not contain (`roundTrip_spare`).  So a message comes back, whatever capacity `append` has left
behind its encoding, exactly if all its answers have pointers for names (`roundTrip_iff`).
-/

namespace Csapp.Dns

open Csapp.Lib

variable {m : DNSMessage} {spare : List UInt8}

/-- `spare` is what `append` has left behind the encoding. -/
def DNSMessage.RoundTrip (m : DNSMessage) (spare : List UInt8) : Prop :=
  ∃ m', ParseDNSResponse ⟨m.encode, spare⟩ = some m' ∧ m.Same m'

theorem encode_at (m : DNSMessage) (spare : List UInt8) : Slice.At ⟨m.encode, spare⟩ 0 m.encode :=
  ⟨[], [], (List.append_nil _).symm, rfl⟩

theorem questions_at (m : DNSMessage) (spare : List UInt8) :
    Slice.At ⟨m.encode, spare⟩ 12 (m.Questions.flatMap DNSQuestion.encode) := by
  have h := (encode_at m spare).left.right
  rwa [m.Header.length_encode] at h

theorem answers_at (m : DNSMessage) (spare : List UInt8) :
    Slice.At ⟨m.encode, spare⟩ (12 + (m.Questions.flatMap DNSQuestion.encode).length)
      (m.Answers.flatMap DNSAnswer.encode) := by
  have h := (encode_at m spare).right
  rwa [List.length_append, m.Header.length_encode, Nat.zero_add] at h

/-- The header and the questions are read back in any case. -/
theorem ParseDNSResponse_encode (h : m.Valid) (spare : List UInt8) : ∃ qs',
    List.Forall₂ DNSQuestion.Same m.Questions qs' ∧ ParseDNSResponse ⟨m.encode, spare⟩ =
      (parseRounds (parseAnswer ⟨m.encode, spare⟩) m.Answers.length []
        (12 + (m.Questions.flatMap DNSQuestion.encode).length)).map fun x => ⟨m.Header, qs', x.1⟩ := by
  have hheader := parseHeader_at (encode_at m spare).left.left
  obtain ⟨qs', hq, hqs⟩ := parseRounds_at (R := DNSQuestion.Same) (fun q hq offset hat => by
    obtain ⟨labels, hlabels⟩ := h.question q hq
    exact ⟨_, parseQuestion_at hlabels hat, rfl, rfl, rfl, labels, hlabels, rfl⟩) [] (questions_at m spare)
  rw [← h.qcount, List.nil_append] at hq
  refine ⟨qs', hqs, ?_⟩
  rw [ParseDNSResponse, hheader, Option.bind_eq_bind, Option.bind_some, ParseDNSQuestions, hq, Option.bind_eq_bind,
    Option.bind_some, ← h.ansCount, Option.map_eq_bind]
  rfl

/-- The name of a question, at the offset that a pointer to it has. -/
theorem name_at (spare : List UInt8) {qs qs' : List DNSQuestion} {q : DNSQuestion}
    (h : m.Questions = qs ++ q :: qs') :
    Slice.At ⟨m.encode, spare⟩ (12 + (qs.flatMap DNSQuestion.encode).length) q.Name := by
  have hat := questions_at m spare
  rw [h, List.flatMap_append, List.flatMap_cons] at hat
  exact hat.right.left.left.left

theorem answer_at (h : m.Valid) {a : DNSAnswer} (ha : a ∈ m.Answers)
    (hptr : ∀ labels, a.Name ≠ encodeName labels) {offset : ℕ}
    (hat : Slice.At ⟨m.encode, spare⟩ offset a.encode) :
    ∃ a', parseAnswer ⟨m.encode, spare⟩ offset = some (a', offset + a.encode.length) ∧ a.Same m a' := by
  obtain ⟨labels, hn⟩ := h.answer a ha
  have hrd := h.rdLength a ha
  generalize hname : a.Name = name at hn
  cases hn with
  | labels => exact absurd hname (hptr labels)
  | pointer hq hlabels ho hlt =>
    have hread := name_at spare hq
    rw [hlabels, ← ho] at hread
    refine ⟨_, parseAnswer_at hlt hname hrd hread hat, rfl, rfl, rfl, rfl, rfl, rfl, labels, ?_, rfl⟩
    exact hname ▸ .pointer hq hlabels ho hlt

/-- Where all names are pointers. -/
theorem roundTrip_of_pointers (h : m.Valid) (hptr : ∀ a ∈ m.Answers, ∀ labels, a.Name ≠ encodeName labels)
    (spare : List UInt8) : m.RoundTrip spare := by
  obtain ⟨qs', hqs, hparse⟩ := ParseDNSResponse_encode h spare
  obtain ⟨as', ha, has⟩ := parseRounds_at (fun a ha offset hat => answer_at h ha (hptr a ha) hat) []
    (answers_at m spare)
  rw [List.nil_append] at ha
  rw [ha, Option.map_some] at hparse
  exact ⟨_, hparse, rfl, hqs, has⟩

/-! ## Written names -/

theorem answerSize_of_same {as as' : List DNSAnswer} (h : List.Forall₂ (DNSAnswer.Same m) as as') :
    as'.map answerSize = as.map answerSize := by
  induction h with
  | nil => rfl
  | cons ha _ ih =>
    obtain ⟨hname, -, -, -, hrd, -⟩ := ha
    rw [List.map_cons, List.map_cons, ih, answerSize, answerSize, hname, hrd]

theorem sum_answerSize {as : List DNSAnswer} (h : ∀ a ∈ as, a.RDLength.toNat = a.RData.length) :
    (as.map answerSize).sum = (as.flatMap DNSAnswer.encode).length +
      2 * as.countP fun a => decide (a.Name.length ≠ 2) := by
  induction as with
  | nil => rfl
  | cons a as ih =>
    rw [List.map_cons, List.sum_cons, List.flatMap_cons, List.length_append, List.countP_cons, a.length_encode,
      ih fun a ha => h a (List.mem_cons_of_mem _ ha), answerSize, h a List.mem_cons_self]
    by_cases hname : a.Name.length = 2
    · rw [if_pos hname, if_neg (by rw [decide_eq_true_eq]; exact not_not_intro hname)]
      omega
    · rw [if_neg hname, if_pos (decide_eq_true hname)]
      omega

/-- What comes back has been read from two bytes more for each written name of an answer. -/
theorem roundTrip_spare (h : m.Valid) (hr : m.RoundTrip spare) :
    2 * (m.Answers.countP fun a => decide (a.Name.length ≠ 2)) ≤ spare.length := by
  obtain ⟨m', hp, -, -, hsame⟩ := hr
  obtain ⟨qs', -, hparse⟩ := ParseDNSResponse_encode h spare
  rw [hparse] at hp
  obtain ⟨⟨as', offset'⟩, ha, rfl⟩ := Option.map_eq_some_iff.mp hp
  have hle := (answers_at m spare).le
  have hlen : m.encode.length = 12 + (m.Questions.flatMap DNSQuestion.encode).length +
      (m.Answers.flatMap DNSAnswer.encode).length := by
    rw [DNSMessage.encode, List.length_append, List.length_append, m.Header.length_encode]
  obtain ⟨rs, rfl, hoffset, hcap⟩ := parseRounds_size (fun _ _ _ hpa => parseAnswer_size hpa)
    (by dsimp only at hle ⊢; omega) ha
  dsimp only [List.nil_append] at hsame hcap
  rw [answerSize_of_same hsame, sum_answerSize h.rdLength] at hoffset
  omega

/-- **The round trip** succeeds, whatever capacity the encoding has been given, exactly if no answer has its
name written out. -/
theorem roundTrip_iff (h : m.Valid) :
    (∀ spare, m.RoundTrip spare) ↔ ∀ a ∈ m.Answers, ∀ labels, a.Name ≠ encodeName labels := by
  refine ⟨fun hall => ?_, roundTrip_of_pointers h⟩
  have hcount := roundTrip_spare h (hall [])
  intro a ha labels hname
  have hpos : 0 < m.Answers.countP fun a => decide (a.Name.length ≠ 2) :=
    List.countP_pos_iff.mpr ⟨a, ha, decide_eq_true (hname ▸ length_encodeName_ne labels)⟩
  rw [List.length_nil] at hcount
  omega

/-! ## Examples -/

def sampleLabels : List Label :=
  [⟨[0x65, 0x78, 0x61, 0x6d, 0x70, 0x6c, 0x65], by decide, by decide⟩,
    ⟨[0x63, 0x6f, 0x6d], by decide, by decide⟩]

def sampleDNSAnswer (Name Namestr : List UInt8) : DNSAnswer :=
  ⟨Name, 2, 1, 8111, 4, [0x5d, 0xb8, 0xd8, 0x22], Namestr⟩

/-- A question for `example.com` and an answer to it. -/
def sampleDNSMessage (Name Namestr : List UInt8) : DNSMessage :=
  ⟨⟨0x0001, 0x8180, 1, 1, 0, 0⟩, [⟨encodeName sampleLabels, 2, 1, Namestr⟩], [sampleDNSAnswer Name Namestr]⟩

example : ParseDNSResponse ⟨(sampleDNSMessage [0xc0, 0x0c] []).encode, []⟩ =
    some (sampleDNSMessage [0xc0, 0x0c] "example.com".toUTF8.toList) := by
  decide +kernel

theorem sample_valid {name : List UInt8} (h : name = pointer 12 ∨ name = encodeName sampleLabels) :
    (sampleDNSMessage name []).Valid := by
  constructor
  · rfl
  · rfl
  · intro q hq
    obtain rfl := List.mem_singleton.mp hq
    exact ⟨sampleLabels, rfl⟩
  · intro a ha
    obtain rfl := List.mem_singleton.mp ha
    rcases h with rfl | rfl
    · have hq : (sampleDNSMessage (pointer 12) []).Questions = [] ++ ⟨encodeName sampleLabels, 2, 1, []⟩ :: [] := rfl
      exact ⟨sampleLabels, .pointer hq rfl rfl (by decide)⟩
    · exact ⟨sampleLabels, .labels sampleLabels⟩
  · intro a ha
    obtain rfl := List.mem_singleton.mp ha
    rfl

theorem roundTrip_sample : (sampleDNSMessage (pointer 12) []).RoundTrip [] := by
  refine (roundTrip_iff (sample_valid (Or.inl rfl))).mpr ?_ []
  intro a ha labels hname
  obtain rfl := List.mem_singleton.mp ha
  exact length_encodeName_ne labels (hname ▸ length_pointer 12)

/-- The type of the answer is read where its class stands. -/
theorem not_roundTrip_sample : ¬ ∃ spare, (sampleDNSMessage (encodeName sampleLabels) []).RoundTrip spare := by
  rintro ⟨spare, m', hp, -, -, hsame⟩
  obtain ⟨qs', -, hparse⟩ := ParseDNSResponse_encode (sample_valid (Or.inr rfl)) spare
  rw [hparse] at hp
  obtain ⟨⟨as', offset'⟩, ha, rfl⟩ := Option.map_eq_some_iff.mp hp
  obtain ⟨⟨a', o⟩, hpa, hrest⟩ := Option.bind_eq_some_iff.mp ha
  obtain ⟨rfl, -⟩ := Prod.mk.inj (Option.some.inj hrest)
  obtain ⟨-, htype, -⟩ := (List.forall₂_cons.mp hsame).1
  have hat : Slice.At _ _ (sampleDNSAnswer (encodeName sampleLabels) []).encode :=
    (answers_at (sampleDNSMessage (encodeName sampleLabels) []) spare).left
  have hclass := parseAnswer_type hat.left.left.left.left.left.get (by decide) rfl hat hpa
  rw [hclass] at htype
  exact absurd htype (by decide)

end Csapp.Dns
