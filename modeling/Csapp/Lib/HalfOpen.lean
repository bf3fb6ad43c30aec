import Mathlib.Data.List.TakeWhile
import Mathlib.Order.MinMax

/-!
# Lib.HalfOpen — lists of half-open intervals

A `HalfOpen` interval has its start and not its end, over any linear order.  A list is `Apart` when every
interval ends before the next one starts, so that neighbours do not even touch.  Such a list is determined
by the points that it covers (`Apart.ext`).  `collapse` merges a list that is sorted by start into such a
list, with the same coverage: `absorb` is one step of it, on the list of what is merged so far, the last
one first.
-/

namespace Csapp.Lib

/-- The points from `start` on and below `end_`. -/
structure HalfOpen (α : Type*) [LinearOrder α] where
  start : α
  end_ : α
  valid : start < end_
  deriving DecidableEq

section HalfOpen

variable {α : Type*} [LinearOrder α] {iv iv' : HalfOpen α} {l l' acc : List (HalfOpen α)} {x : α}

@[ext] theorem HalfOpen.ext (h1 : iv.start = iv'.start) (h2 : iv.end_ = iv'.end_) : iv = iv' := by
  cases iv
  cases iv'
  cases h1
  cases h2
  rfl

def HalfOpen.Has (iv : HalfOpen α) (x : α) : Prop := iv.start ≤ x ∧ x < iv.end_

/-- Some interval of the list has the point. -/
def Covers (l : List (HalfOpen α)) (x : α) : Prop := ∃ iv ∈ l, iv.Has x

theorem covers_nil : ¬ Covers [] x := by
  rintro ⟨iv, h, -⟩
  cases h

theorem covers_cons : Covers (iv :: l) x ↔ iv.Has x ∨ Covers l x := by
  constructor
  · rintro ⟨iv', h, hx⟩
    rcases List.mem_cons.mp h with rfl | h
    · exact Or.inl hx
    · exact Or.inr ⟨iv', h, hx⟩
  · rintro (hx | ⟨iv', h, hx⟩)
    · exact ⟨iv, List.mem_cons_self, hx⟩
    · exact ⟨iv', List.mem_cons_of_mem iv h, hx⟩

theorem covers_congr (h : ∀ iv, iv ∈ l ↔ iv ∈ l') : Covers l x ↔ Covers l' x :=
  exists_congr fun iv => and_congr_left fun _ => h iv

/-! ## Separate intervals -/

def Apart (l : List (HalfOpen α)) : Prop := l.Pairwise fun a b => a.end_ < b.start

/-- All points of a list that is apart from `iv` are above the end of `iv`. -/
theorem lt_of_covers (h : ∀ b ∈ l, iv.end_ < b.start) (hx : Covers l x) : iv.end_ < x := by
  obtain ⟨b, hb, hle, -⟩ := hx
  exact lt_of_lt_of_le (h b hb) hle

theorem Apart.start_le (h : Apart (iv :: l)) (hx : Covers (iv :: l) x) : iv.start ≤ x := by
  rcases covers_cons.mp hx with hx | hx
  · exact hx.1
  · exact le_of_lt (iv.valid.trans (lt_of_covers (List.pairwise_cons.mp h).1 hx))

/-- The rest covers what the first interval does not have. -/
theorem Apart.covers_tail (h : Apart (iv :: l)) : Covers l x ↔ Covers (iv :: l) x ∧ iv.end_ ≤ x := by
  constructor
  · intro hx
    exact ⟨covers_cons.mpr (Or.inr hx), le_of_lt (lt_of_covers (List.pairwise_cons.mp h).1 hx)⟩
  · rintro ⟨hx, hle⟩
    exact (covers_cons.mp hx).resolve_left fun hiv => not_lt.mpr hle hiv.2

/-- The first interval ends at the first point that is not covered. -/
theorem Apart.end_le (h : Apart (iv :: l)) (hs : iv.start = iv'.start)
    (hc : ∀ x, Covers (iv' :: l') x → Covers (iv :: l) x) : iv'.end_ ≤ iv.end_ := by
  refine le_of_not_gt fun hlt => ?_
  have hin : Covers (iv' :: l') iv.end_ :=
    covers_cons.mpr (Or.inl ⟨hs ▸ le_of_lt iv.valid, hlt⟩)
  rcases covers_cons.mp (hc _ hin) with hx | hx
  · exact lt_irrefl _ hx.2
  · exact lt_irrefl _ (lt_of_covers (List.pairwise_cons.mp h).1 hx)

/-- **Separate intervals are determined by the points that they cover.** -/
theorem Apart.ext : ∀ {l l' : List (HalfOpen α)}, Apart l → Apart l' → (∀ x, Covers l x ↔ Covers l' x) → l = l'
  | [], [], _, _, _ => rfl
  | [], iv :: _, _, _, hc =>
    absurd ((hc iv.start).mpr (covers_cons.mpr (Or.inl ⟨le_rfl, iv.valid⟩))) covers_nil
  | iv :: _, [], _, _, hc =>
    absurd ((hc iv.start).mp (covers_cons.mpr (Or.inl ⟨le_rfl, iv.valid⟩))) covers_nil
  | iv :: l, iv' :: l', h, h', hc => by
    have hs : iv.start = iv'.start := le_antisymm
      (h.start_le ((hc _).mpr (covers_cons.mpr (Or.inl ⟨le_rfl, iv'.valid⟩))))
      (h'.start_le ((hc _).mp (covers_cons.mpr (Or.inl ⟨le_rfl, iv.valid⟩))))
    have he : iv.end_ = iv'.end_ := le_antisymm
      (h'.end_le hs.symm fun x => (hc x).mp) (h.end_le hs fun x => (hc x).mpr)
    have htail : l = l' := Apart.ext (List.pairwise_cons.mp h).2 (List.pairwise_cons.mp h').2 fun x => by
      rw [h.covers_tail, h'.covers_tail, hc, he]
    rw [HalfOpen.ext hs he, htail]

/-! ## Merging -/

/-- The hull of two intervals, the first of which starts first. -/
def HalfOpen.hull (a b : HalfOpen α) : HalfOpen α :=
  ⟨a.start, max a.end_ b.end_, lt_of_lt_of_le a.valid (le_max_left _ _)⟩

theorem HalfOpen.hull_has {a b : HalfOpen α} (hs : a.start ≤ b.start) (ht : b.start ≤ a.end_) :
    (a.hull b).Has x ↔ a.Has x ∨ b.Has x := by
  unfold Has hull
  constructor
  · rintro ⟨h1, h2⟩
    rcases lt_max_iff.mp h2 with h2 | h2
    · exact Or.inl ⟨h1, h2⟩
    · rcases lt_or_ge x a.end_ with h3 | h3
      · exact Or.inl ⟨h1, h3⟩
      · exact Or.inr ⟨ht.trans h3, h2⟩
  · rintro (⟨h1, h2⟩ | ⟨h1, h2⟩)
    · exact ⟨h1, lt_of_lt_of_le h2 (le_max_left _ _)⟩
    · exact ⟨hs.trans h1, lt_of_lt_of_le h2 (le_max_right _ _)⟩

/-- `acc` is what is merged so far, the last one first. -/
def absorb : List (HalfOpen α) → HalfOpen α → List (HalfOpen α)
  | [], b => [b]
  | a :: acc, b => if b.start ≤ a.end_ then a.hull b :: acc else b :: a :: acc

def collapse (l : List (HalfOpen α)) : List (HalfOpen α) := (l.foldl absorb []).reverse

/-- What is merged so far, and an interval that does not start before its last one. -/
structure Mergeable (acc : List (HalfOpen α)) (l : List (HalfOpen α)) : Prop where
  apart : Apart acc.reverse
  sorted : l.Pairwise fun a b => a.start ≤ b.start
  above : ∀ a ∈ acc.head?, ∀ b ∈ l, a.start ≤ b.start

theorem apart_reverse_cons {a : HalfOpen α} :
    Apart (a :: acc).reverse ↔ Apart acc.reverse ∧ ∀ c ∈ acc, c.end_ < a.start := by
  unfold Apart
  rw [List.pairwise_reverse, List.pairwise_cons, List.pairwise_reverse]
  exact and_comm

theorem Mergeable.absorb {b : HalfOpen α} (h : Mergeable acc (b :: l)) : Mergeable (absorb acc b) l := by
  obtain ⟨h1, h2, h3⟩ := h
  obtain ⟨hb, hl⟩ := List.pairwise_cons.mp h2
  cases acc with
  | nil =>
    refine ⟨List.pairwise_singleton _ _, hl, fun a ha => ?_⟩
    obtain rfl : b = a := Option.some.inj ha
    exact hb
  | cons a acc =>
    have hab : a.start ≤ b.start := h3 a rfl b List.mem_cons_self
    obtain ⟨h4, h5⟩ := apart_reverse_cons.mp h1
    rw [Lib.absorb]
    split_ifs with ht
    · refine ⟨apart_reverse_cons.mpr ⟨h4, h5⟩, hl, fun a' ha' c hc => ?_⟩
      obtain rfl : a.hull b = a' := Option.some.inj ha'
      exact hab.trans (hb c hc)
    · have hgap : a.end_ < b.start := not_le.mp ht
      refine ⟨apart_reverse_cons.mpr ⟨h1, fun c hc => ?_⟩, hl, fun a' ha' => ?_⟩
      · rcases List.mem_cons.mp hc with rfl | hc
        · exact hgap
        · exact (h5 c hc).trans (a.valid.trans hgap)
      · obtain rfl : b = a' := Option.some.inj ha'
        exact hb

theorem Mergeable.covers_absorb {b : HalfOpen α} (h : Mergeable acc (b :: l)) :
    Covers (Lib.absorb acc b) x ↔ Covers acc x ∨ b.Has x := by
  cases acc with
  | nil => rw [Lib.absorb, covers_cons, or_comm]
  | cons a acc =>
    rw [Lib.absorb]
    split_ifs with ht
    · rw [covers_cons, HalfOpen.hull_has (h.above a rfl b List.mem_cons_self) ht, covers_cons, or_assoc,
        or_assoc, or_comm (a := b.Has x)]
    · rw [covers_cons, or_comm]

theorem Mergeable.foldl : ∀ {l acc : List (HalfOpen α)}, Mergeable acc l → Apart (l.foldl Lib.absorb acc).reverse ∧
    ∀ x, Covers (l.foldl Lib.absorb acc) x ↔ Covers acc x ∨ Covers l x
  | [], acc, h => ⟨h.apart, fun x => ⟨Or.inl, fun hx => hx.resolve_right covers_nil⟩⟩
  | b :: l, acc, h => by
    obtain ⟨h1, h2⟩ := h.absorb.foldl
    refine ⟨h1, fun x => ?_⟩
    rw [List.foldl_cons, h2, h.covers_absorb, covers_cons, or_assoc]

/-- Collapsing a list that is sorted by start separates the intervals and keeps the coverage. -/
theorem collapse_spec (h : l.Pairwise fun a b => a.start ≤ b.start) :
    Apart (collapse l) ∧ ∀ x, Covers (collapse l) x ↔ Covers l x := by
  have hm : Mergeable [] l := ⟨List.Pairwise.nil, h, fun a ha => by cases ha⟩
  obtain ⟨h1, h2⟩ := hm.foldl
  refine ⟨h1, fun x => ?_⟩
  rw [collapse, covers_congr fun iv => List.mem_reverse, h2]
  exact or_iff_right covers_nil

end HalfOpen

end Csapp.Lib
