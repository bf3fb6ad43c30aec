import Mathlib.Algebra.Ring.Nat
import Mathlib.Data.List.Forall2

/-!
# Lib.Slice — slices with spare capacity, read at an offset

An element of a slice is read within its length, a sub-slice within its capacity: the elements between the
two are `spare`.  `Slice.At b off s` says that `b` holds `s` at the offset `off`, within its length.
`readInto` is a read to the start of a buffer.  `parseRounds` parses a number of records one behind the other:
it reads the records that stand there (`parseRounds_at`), and where it ends is known from what it returns
(`parseRounds_size`).
-/

namespace Csapp.Lib

structure Slice (α : Type*) where
  data : List α
  spare : List α

namespace Slice

variable {α : Type*} {b : Slice α} {off : ℕ} {s t : List α} {x : α}

/-- `b[i]`. -/
def get (b : Slice α) (i : ℕ) : Option α := b.data[i]?

/-- `b[lo:hi]`. -/
def sub (b : Slice α) (lo hi : ℕ) : Option (List α) :=
  if lo ≤ hi ∧ hi ≤ b.data.length + b.spare.length then some (((b.data ++ b.spare).take hi).drop lo) else none

/-- `b[lo:]`. -/
def drop (b : Slice α) (lo : ℕ) : Option (Slice α) :=
  if lo ≤ b.data.length then some ⟨b.data.drop lo, b.spare⟩ else none

/-- At offset `off` stands `s`. -/
def At (b : Slice α) (off : ℕ) (s : List α) : Prop := ∃ p q, b.data = p ++ (s ++ q) ∧ p.length = off

theorem At.left (h : b.At off (s ++ t)) : b.At off s := by
  obtain ⟨p, q, hb, hp⟩ := h
  exact ⟨p, t ++ q, by rw [hb, List.append_assoc], hp⟩

theorem At.right (h : b.At off (s ++ t)) : b.At (off + s.length) t := by
  obtain ⟨p, q, hb, hp⟩ := h
  exact ⟨p ++ s, q, by rw [hb, List.append_assoc, List.append_assoc], by rw [List.length_append, hp]⟩

theorem At.tail (h : b.At off (x :: s)) : b.At (off + 1) s := At.right (s := [x]) h

theorem At.le (h : b.At off s) : off + s.length ≤ b.data.length := by
  obtain ⟨p, q, hb, hp⟩ := h
  rw [hb, List.length_append, List.length_append]
  omega

theorem At.get (h : b.At off (x :: s)) : b.get off = some x := by
  obtain ⟨p, q, hb, rfl⟩ := h
  rw [Slice.get, hb, List.getElem?_append_right (Nat.le_refl _), Nat.sub_self]
  rfl

theorem At.sub (h : b.At off s) : b.sub off (off + s.length) = some s := by
  have hle := h.le
  obtain ⟨p, q, hb, rfl⟩ := h
  rw [Slice.sub, if_pos ⟨Nat.le_add_right _ _, Nat.le_trans hle (Nat.le_add_right _ _)⟩, hb,
    ← List.append_assoc p s q, List.append_assoc (p ++ s), ← List.length_append, List.take_left,
    List.drop_left]

theorem get_lt {i : ℕ} (h : i < b.data.length) : ∃ x, b.get i = some x :=
  ⟨_, List.getElem?_eq_getElem h⟩

theorem sub_le {lo hi : ℕ} (hlo : lo ≤ hi) (hhi : hi ≤ b.data.length) : ∃ l, b.sub lo hi = some l :=
  ⟨_, if_pos ⟨hlo, Nat.le_trans hhi (Nat.le_add_right _ _)⟩⟩

theorem drop_le {lo : ℕ} (h : lo ≤ b.data.length) : b.drop lo = some ⟨b.data.drop lo, b.spare⟩ := if_pos h

/-- A sub-slice starts with the element at its lower bound. -/
theorem sub_cons {hi : ℕ} (hx : b.get off = some x) (h : b.sub off hi = some s) (hlt : off < hi) :
    ∃ t, s = x :: t := by
  obtain ⟨hoff, hget⟩ := List.getElem?_eq_some_iff.mp hx
  rw [Slice.sub] at h
  obtain ⟨⟨-, hhi⟩, h⟩ := Option.ite_none_right_eq_some.mp h
  have hlen : off < ((b.data ++ b.spare).take hi).length := by
    rw [List.length_take, List.length_append]
    omega
  rw [Option.some.injEq, List.drop_eq_getElem_cons hlen, List.getElem_take,
    List.getElem_append_left hoff, hget] at h
  exact ⟨_, h.symm⟩

theorem sub_eq_some {lo hi : ℕ} : (Slice.mk s []).sub lo hi = some t ↔
    lo ≤ hi ∧ hi ≤ s.length ∧ (s.take hi).drop lo = t := by
  rw [Slice.sub, Option.ite_none_right_eq_some, List.append_nil, List.length_nil, Nat.add_zero, and_assoc,
    Option.some.injEq]

theorem sub_length {lo hi : ℕ} (h : b.sub lo hi = some s) :
    lo + s.length = hi ∧ hi ≤ b.data.length + b.spare.length := by
  rw [Slice.sub] at h
  obtain ⟨⟨hlo, hhi⟩, h⟩ := Option.ite_none_right_eq_some.mp h
  obtain rfl := Option.some.inj h
  rw [List.length_drop, List.length_take, List.length_append]
  omega

end Slice

/-! ## Reading into a buffer -/

section Buffer

variable {α : Type*}

/-- A buffer after a read of `l` to its start. -/
def readInto (l buffer : List α) : List α := l ++ buffer.drop l.length

theorem take_readInto (l buffer : List α) : (readInto l buffer).take l.length = l := List.take_left

theorem length_readInto {l buffer : List α} (h : l.length ≤ buffer.length) :
    (readInto l buffer).length = buffer.length := by
  rw [readInto, List.length_append, List.length_drop]
  omega

/-- A read that fills the buffer. -/
theorem readInto_full {l buffer : List α} (h : buffer.length = l.length) : readInto l buffer = l := by
  rw [readInto, List.drop_of_length_le (le_of_eq h), List.append_nil]

end Buffer

/-! ## Records one behind the other -/

section Rounds

variable {α β : Type*} {parse : ℕ → Option (β × ℕ)}

/-- `n` records, from `offset` on, behind the records that were read before. -/
def parseRounds (parse : ℕ → Option (β × ℕ)) : ℕ → List β → ℕ → Option (List β × ℕ)
  | 0, acc, offset => some (acc, offset)
  | n + 1, acc, offset => (parse offset).bind fun x => parseRounds parse n (acc ++ [x.1]) x.2

/-- `n` steps from one offset to the next. -/
def Rounds (R : ℕ → ℕ → Prop) : ℕ → ℕ → ℕ → Prop
  | 0, offset, offset' => offset' = offset
  | n + 1, offset, offset' => ∃ o, R offset o ∧ Rounds R n o offset'

/-- Records are read where each of them can be read behind the one before it. -/
theorem parseRounds_iff {R : ℕ → ℕ → Prop} (h : ∀ offset o, (∃ r, parse offset = some (r, o)) ↔ R offset o) :
    ∀ (n : ℕ) (acc : List β) (offset offset' : ℕ),
      (∃ rs, parseRounds parse n acc offset = some (rs, offset')) ↔ Rounds R n offset offset'
  | 0, acc, offset, offset' => by
    constructor
    · rintro ⟨rs, hrs⟩
      exact (Prod.mk.inj (Option.some.inj hrs)).2.symm
    · rintro rfl
      exact ⟨acc, rfl⟩
  | n + 1, acc, offset, offset' => by
    constructor
    · rintro ⟨rs, hrs⟩
      obtain ⟨⟨r, o⟩, h1, h2⟩ := Option.bind_eq_some_iff.mp hrs
      exact ⟨o, (h offset o).mp ⟨r, h1⟩, (parseRounds_iff h n _ o offset').mp ⟨rs, h2⟩⟩
    · rintro ⟨o, h1, h2⟩
      obtain ⟨r, hr⟩ := (h offset o).mpr h1
      obtain ⟨rs, hrs⟩ := (parseRounds_iff h n (acc ++ [r]) o offset').mpr h2
      exact ⟨rs, by rw [parseRounds, hr, Option.bind_some, hrs]⟩

/-- The records that stand at `offset` are read, each as one that is related to it. -/
theorem parseRounds_at {b : Slice α} {γ : Type*} {enc : γ → List α} {R : γ → β → Prop} : ∀ {rs : List γ},
    (∀ r ∈ rs, ∀ offset, b.At offset (enc r) →
      ∃ r', parse offset = some (r', offset + (enc r).length) ∧ R r r') →
    ∀ (acc : List β) {offset : ℕ}, b.At offset (rs.flatMap enc) →
      ∃ rs', parseRounds parse rs.length acc offset = some (acc ++ rs', offset + (rs.flatMap enc).length) ∧
        List.Forall₂ R rs rs'
  | [], _, acc, offset, _ => ⟨[], by rw [List.append_nil]; rfl, .nil⟩
  | r :: rs, h, acc, offset, hat => by
    rw [List.flatMap_cons] at hat ⊢
    obtain ⟨r', h1, h2⟩ := h r List.mem_cons_self offset hat.left
    obtain ⟨rs', h3, h4⟩ := parseRounds_at (fun r hr => h r (List.mem_cons_of_mem _ hr)) (acc ++ [r']) hat.right
    refine ⟨r' :: rs', ?_, .cons h2 h4⟩
    rw [List.length_cons, parseRounds, h1, Option.bind_some, h3, List.append_assoc, List.length_append,
      Nat.add_assoc]
    rfl

/-- Where the rounds end, from what each of them returns. -/
theorem parseRounds_size {size : β → ℕ} {cap : ℕ}
    (h : ∀ offset r offset', parse offset = some (r, offset') → offset' = offset + size r ∧ offset' ≤ cap) :
    ∀ {n : ℕ} {acc rs : List β} {offset offset' : ℕ}, offset ≤ cap →
      parseRounds parse n acc offset = some (rs, offset') →
      ∃ rs', rs = acc ++ rs' ∧ offset' = offset + (rs'.map size).sum ∧ offset' ≤ cap
  | 0, acc, rs, offset, offset', hle, hp => by
    obtain ⟨rfl, rfl⟩ := Prod.mk.inj (Option.some.inj hp)
    exact ⟨[], (List.append_nil _).symm, rfl, hle⟩
  | n + 1, acc, rs, offset, offset', hle, hp => by
    obtain ⟨⟨r, o⟩, h1, h2⟩ := Option.bind_eq_some_iff.mp hp
    obtain ⟨rfl, ho⟩ := h offset r o h1
    obtain ⟨rs', rfl, rfl, hcap⟩ := parseRounds_size h ho h2
    refine ⟨r :: rs', by rw [List.append_assoc]; rfl, ?_, hcap⟩
    rw [List.map_cons, List.sum_cons, Nat.add_assoc]

end Rounds

end Csapp.Lib
