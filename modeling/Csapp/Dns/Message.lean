import Csapp.Lib.BigEndian
import Mathlib.Data.List.Forall2

/-!
# Dns.Message — messages, names and their encoding

A name is a sequence of labels, each behind its length, with a zero byte at the end; the name of an answer
may also be a pointer, two bytes long, to the name of a question.  `DNSMessage.Valid` says that the counts,
the names and the data lengths of a message are in order, and `DNSMessage.Same` what a parsed message has in
common with the one that was encoded.
-/

namespace Csapp.Dns

open Csapp.Lib

structure DNSHeader where
  ID : UInt16
  Flags : UInt16
  QCount : UInt16
  AnsCount : UInt16
  RRCount : UInt16
  AddnlRRCount : UInt16
  deriving DecidableEq

/-- `Namestr` is a string as Go has it, the bytes of its characters. -/
structure DNSQuestion where
  Name : List UInt8
  type : UInt16
  Class : UInt16
  Namestr : List UInt8
  deriving DecidableEq

structure DNSAnswer where
  Name : List UInt8
  type : UInt16
  Class : UInt16
  TTL : UInt32
  RDLength : UInt16
  RData : List UInt8
  Namestr : List UInt8
  deriving DecidableEq

structure DNSMessage where
  Header : DNSHeader
  Questions : List DNSQuestion
  Answers : List DNSAnswer
  deriving DecidableEq

/-! ## The encoding -/

def DNSHeader.encode (h : DNSHeader) : List UInt8 :=
  be16 h.ID ++ be16 h.Flags ++ be16 h.QCount ++ be16 h.AnsCount ++ be16 h.RRCount ++ be16 h.AddnlRRCount

def DNSQuestion.encode (question : DNSQuestion) : List UInt8 :=
  question.Name ++ be16 question.type ++ be16 question.Class

def DNSAnswer.encode (answer : DNSAnswer) : List UInt8 :=
  answer.Name ++ be16 answer.type ++ be16 answer.Class ++ be32 answer.TTL ++ be16 answer.RDLength ++ answer.RData

def DNSMessage.encode (m : DNSMessage) : List UInt8 :=
  m.Header.encode ++ m.Questions.flatMap DNSQuestion.encode ++ m.Answers.flatMap DNSAnswer.encode

theorem DNSHeader.length_encode (h : DNSHeader) : h.encode.length = 12 := by
  simp only [DNSHeader.encode, List.length_append, length_be16]

theorem DNSAnswer.length_encode (a : DNSAnswer) : a.encode.length = a.Name.length + 10 + a.RData.length := by
  simp only [DNSAnswer.encode, List.length_append, length_be16, length_be32]

/-! ## Names -/

/-- What one length byte can announce, except for the end of the name. -/
structure Label where
  bytes : List UInt8
  pos : 0 < bytes.length
  lt : bytes.length < 256

def Label.encode (l : Label) : List UInt8 := UInt8.ofNat l.bytes.length :: l.bytes

def encodeName (labels : List Label) : List UInt8 := labels.flatMap Label.encode ++ [0]

/-- The labels with dots between them. -/
def dotted (labels : List Label) : List UInt8 := [0x2e].intercalate (labels.map Label.bytes)

/-- Two bits that say that it is a pointer, and an offset of 14 bits. -/
def pointer (offset : ℕ) : List UInt8 := be16 (UInt16.ofNat (0xc000 + offset))

theorem Label.length_byte (l : Label) : (UInt8.ofNat l.bytes.length).toNat = l.bytes.length :=
  UInt8.toNat_ofNat_of_lt' l.lt

theorem Label.length_byte_ne_zero (l : Label) : UInt8.ofNat l.bytes.length ≠ 0 := by
  intro h
  have hpos := l.pos
  rw [← l.length_byte, h] at hpos
  exact Nat.lt_irrefl 0 hpos

theorem Label.bytes_ne_nil (l : Label) : l.bytes ≠ [] := List.ne_nil_of_length_pos l.pos

theorem Label.length_encode (l : Label) : l.encode.length = l.bytes.length + 1 := rfl

theorem encodeName_cons (l : Label) (labels : List Label) :
    encodeName (l :: labels) = l.encode ++ encodeName labels := by
  rw [encodeName, List.flatMap_cons, encodeName, List.append_assoc]

theorem dotted_nil : dotted [] = [] := rfl

theorem dotted_cons (l : Label) (labels : List Label) :
    dotted (l :: labels) = l.bytes ++ labels.flatMap fun l => 0x2e :: l.bytes := by
  induction labels generalizing l with
  | nil => exact List.flatten_cons
  | cons l' labels ih =>
    have hdot : dotted (l :: l' :: labels) = l.bytes ++ 0x2e :: dotted (l' :: labels) := by
      simp only [dotted, List.intercalate, List.map_cons, List.intersperse_cons_cons, List.flatten_cons]
      rfl
    rw [hdot, ih, List.flatMap_cons, List.cons_append]

theorem length_lt_encodeName (labels : List Label) : labels.length < (encodeName labels).length := by
  induction labels with
  | nil => exact Nat.one_pos
  | cons l labels ih =>
    rw [encodeName_cons, List.length_append, l.length_encode, List.length_cons]
    omega

/-- No name is as long as a pointer. -/
theorem length_encodeName_ne (labels : List Label) : (encodeName labels).length ≠ 2 := by
  cases labels with
  | nil => decide
  | cons l labels =>
    have hpos := l.pos
    have hlt := length_lt_encodeName labels
    rw [encodeName_cons, List.length_append, l.length_encode]
    omega

theorem length_pointer (offset : ℕ) : (pointer offset).length = 2 := length_be16 _

/-! ## Messages in order -/

/-- The labels that the name of an answer stands for, written out or as a pointer to the name of a question. -/
inductive DNSMessage.NameOf (m : DNSMessage) : List UInt8 → List Label → Prop
  | labels (labels : List Label) : m.NameOf (encodeName labels) labels
  | pointer {qs qs' : List DNSQuestion} {q : DNSQuestion} {labels : List Label} {offset : ℕ} :
      m.Questions = qs ++ q :: qs' → q.Name = encodeName labels →
      offset = 12 + (qs.flatMap DNSQuestion.encode).length → offset < 2 ^ 14 →
      m.NameOf (Dns.pointer offset) labels

structure DNSMessage.Valid (m : DNSMessage) : Prop where
  qcount : m.Header.QCount.toNat = m.Questions.length
  ansCount : m.Header.AnsCount.toNat = m.Answers.length
  question : ∀ q ∈ m.Questions, ∃ labels, q.Name = encodeName labels
  answer : ∀ a ∈ m.Answers, ∃ labels, m.NameOf a.Name labels
  rdLength : ∀ a ∈ m.Answers, a.RDLength.toNat = a.RData.length

/-- `q'` has the fields of `q`, and its name in dots. -/
def DNSQuestion.Same (q q' : DNSQuestion) : Prop :=
  q'.Name = q.Name ∧ q'.type = q.type ∧ q'.Class = q.Class ∧
    ∃ labels, q.Name = encodeName labels ∧ q'.Namestr = dotted labels

def DNSAnswer.Same (m : DNSMessage) (a a' : DNSAnswer) : Prop :=
  a'.Name = a.Name ∧ a'.type = a.type ∧ a'.Class = a.Class ∧ a'.TTL = a.TTL ∧ a'.RDLength = a.RDLength ∧
    a'.RData = a.RData ∧ ∃ labels, m.NameOf a.Name labels ∧ a'.Namestr = dotted labels

def DNSMessage.Same (m m' : DNSMessage) : Prop :=
  m'.Header = m.Header ∧ List.Forall₂ DNSQuestion.Same m.Questions m'.Questions ∧
    List.Forall₂ (DNSAnswer.Same m) m.Answers m'.Answers

end Csapp.Dns
