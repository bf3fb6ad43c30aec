import Mathlib.Data.List.TakeWhile
import Mathlib.Order.Lattice
import Mathlib.Tactic.Conv

/-!
# Lib.SortedList — lists sorted by a key, with duplicates

`below f k l` are the elements with a key below `k` and `atLeast f k l` the rest; in a sorted list this
splits by key.  `upTo` and `beyond` split behind a key instead, and both cuts together give the elements
between two bounds.  On lists of pairs these give a sorted multimap: `insertEntry` puts a pair in front of
the pairs with its key, `deleteEntry` and `updateEntry` change the first pair with the key, and the
lower bound of a key is the head of `atLeast`.
-/

namespace Csapp.Lib

variable {α β K V : Type*} [LinearOrder K]

/-! ## Splitting at a key -/

def below (f : α → K) (k : K) (l : List α) : List α := l.takeWhile fun a => decide (f a < k)

def atLeast (f : α → K) (k : K) (l : List α) : List α := l.dropWhile fun a => decide (f a < k)

def upTo (f : α → K) (k : K) (l : List α) : List α := l.takeWhile fun a => decide (f a ≤ k)

def beyond (f : α → K) (k : K) (l : List α) : List α := l.dropWhile fun a => decide (f a ≤ k)

def SortedBy (f : α → K) (l : List α) : Prop := l.Pairwise fun a b => f a ≤ f b

section Split

variable {f : α → K} {k : K} {l : List α} {a : α}

theorem below_append_atLeast (f : α → K) (k : K) (l : List α) : below f k l ++ atLeast f k l = l :=
  List.takeWhile_append_dropWhile

theorem below_subset : below f k l ⊆ l := List.takeWhile_subset _

theorem atLeast_subset : atLeast f k l ⊆ l := List.dropWhile_subset _

theorem lt_of_mem_below (h : a ∈ below f k l) : f a < k := by
  simpa using List.mem_takeWhile_imp h

theorem below_congr {g : α → K} (h : ∀ a ∈ l, g a = f a) : below g k l = below f k l ∧
    atLeast g k l = atLeast f k l := by
  induction l with
  | nil => exact ⟨rfl, rfl⟩
  | cons b l ih =>
    obtain ⟨h1, h2⟩ := ih fun a ha => h a (List.mem_cons_of_mem b ha)
    simp only [below, atLeast, List.takeWhile_cons, List.dropWhile_cons, h b List.mem_cons_self] at *
    split_ifs
    · exact ⟨congrArg (b :: ·) h1, h2⟩
    · exact ⟨rfl, rfl⟩

theorem below_map (g : β → α) (f : α → K) (k : K) (l : List β) :
    below f k (l.map g) = (below (f ∘ g) k l).map g := List.takeWhile_map

theorem atLeast_map (g : β → α) (f : α → K) (k : K) (l : List β) :
    atLeast f k (l.map g) = (atLeast (f ∘ g) k l).map g := List.dropWhile_map

theorem SortedBy.le_of_mem_atLeast (h : SortedBy f l) (ha : a ∈ atLeast f k l) : k ≤ f a := by
  induction l with
  | nil => simp [atLeast] at ha
  | cons b l ih =>
    obtain ⟨h1, h2⟩ := List.pairwise_cons.mp h
    by_cases hb : f b < k
    · exact ih h2 (by simpa [atLeast, hb] using ha)
    · rw [atLeast, List.dropWhile_cons_of_neg (by simpa using hb)] at ha
      rcases List.mem_cons.mp ha with rfl | ha
      · exact not_lt.mp hb
      · exact le_trans (not_lt.mp hb) (h1 a ha)

theorem below_cons_of_lt (h : f a < k) : below f k (a :: l) = a :: below f k l ∧
    atLeast f k (a :: l) = atLeast f k l :=
  ⟨List.takeWhile_cons_of_pos (by simpa using h), List.dropWhile_cons_of_pos (by simpa using h)⟩

theorem below_cons_of_not_lt (h : ¬ f a < k) : below f k (a :: l) = [] ∧ atLeast f k (a :: l) = a :: l :=
  ⟨List.takeWhile_cons_of_neg (by simpa using h), List.dropWhile_cons_of_neg (by simpa using h)⟩

theorem upTo_append_beyond (f : α → K) (k : K) (l : List α) : upTo f k l ++ beyond f k l = l :=
  List.takeWhile_append_dropWhile

theorem upTo_cons_of_le (h : f a ≤ k) : upTo f k (a :: l) = a :: upTo f k l ∧
    beyond f k (a :: l) = beyond f k l :=
  ⟨List.takeWhile_cons_of_pos (by simpa using h), List.dropWhile_cons_of_pos (by simpa using h)⟩

theorem upTo_cons_of_not_le (h : ¬ f a ≤ k) : upTo f k (a :: l) = [] ∧ beyond f k (a :: l) = a :: l :=
  ⟨List.takeWhile_cons_of_neg (by simpa using h), List.dropWhile_cons_of_neg (by simpa using h)⟩

theorem below_of_forall_ge (h : ∀ a ∈ l, k ≤ f a) : below f k l = [] ∧ atLeast f k l = l := by
  cases l with
  | nil => exact ⟨rfl, rfl⟩
  | cons b l => exact below_cons_of_not_lt (not_lt.mpr (h b List.mem_cons_self))

/-- The two parts are the only ones that fit. -/
theorem below_of_append {as bs : List α} (ha : ∀ a ∈ as, f a < k) (hb : ∀ b ∈ bs, k ≤ f b) :
    below f k (as ++ bs) = as ∧ atLeast f k (as ++ bs) = bs := by
  induction as with
  | nil => exact below_of_forall_ge hb
  | cons a as ih =>
    obtain ⟨h1, h2⟩ := ih fun a' ha' => ha a' (List.mem_cons_of_mem a ha')
    obtain ⟨h3, h4⟩ := below_cons_of_lt (l := as ++ bs) (ha a List.mem_cons_self)
    rw [List.cons_append, h3, h4, h1, h2]
    exact ⟨rfl, rfl⟩

/-- A new element with key `k` goes between the two parts. -/
theorem SortedBy.insert (h : SortedBy f l) (ha : f a = k) :
    SortedBy f (below f k l ++ a :: atLeast f k l) := by
  have hl := h
  rw [← below_append_atLeast f k l, SortedBy, List.pairwise_append] at hl
  refine List.pairwise_append.mpr ⟨hl.1, List.pairwise_cons.mpr ⟨fun b hb => ?_, hl.2.1⟩, ?_⟩
  · rw [ha]; exact h.le_of_mem_atLeast hb
  · intro b hb c hc
    rcases List.mem_cons.mp hc with rfl | hc
    · rw [ha]; exact le_of_lt (lt_of_mem_below hb)
    · exact hl.2.2 b hb c hc

/-- The lower bound of a key. -/
theorem atLeast_head? (f : α → K) (k : K) (l : List α) :
    (atLeast f k l).head? = l.find? fun a => decide (k ≤ f a) := by
  rw [atLeast, ← List.find?_not_eq_head?_dropWhile]
  congr 1
  funext a
  rw [← decide_not, decide_eq_decide]
  exact not_lt

/-- In a sorted list the elements between two bounds stand together. -/
theorem SortedBy.filter_range (h : SortedBy f l) (lo hi : K) :
    l.filter (fun a => decide (lo ≤ f a) && decide (f a ≤ hi)) = upTo f hi (atLeast f lo l) := by
  induction l with
  | nil => rfl
  | cons b l ih =>
    obtain ⟨hb, hl⟩ := List.pairwise_cons.mp h
    by_cases hlo : f b < lo
    · rw [List.filter_cons_of_neg (by simp [hlo]), (below_cons_of_lt hlo).2]
      exact ih hl
    · rw [(below_cons_of_not_lt hlo).2]
      by_cases hhi : f b ≤ hi
      · have hrest : atLeast f lo l = l :=
          (below_of_forall_ge fun a ha => le_trans (not_lt.mp hlo) (hb a ha)).2
        rw [List.filter_cons_of_pos (by simp [hhi, not_lt.mp hlo]), (upTo_cons_of_le hhi).1, ih hl, hrest]
      · have hnone : l.filter (fun a => decide (lo ≤ f a) && decide (f a ≤ hi)) = [] := by
          apply List.filter_eq_nil_iff.mpr
          intro a ha
          have hlt := lt_of_lt_of_le (not_le.mp hhi) (hb a ha)
          simp [not_le.mpr hlt]
        rw [List.filter_cons_of_neg (by simp [hhi]), (upTo_cons_of_not_le hhi).1, hnone]

theorem SortedBy.sublist {l' : List α} (h : SortedBy f l) (hs : l'.Sublist l) : SortedBy f l' :=
  List.Pairwise.sublist hs h

end Split

/-! ## The multimap -/

section Multimap

/-- The first pair with a key of at least `k`. -/
def searchEntry (k : K) (es : List (K × V)) : Option (K × V) := (atLeast Prod.fst k es).head?

def insertEntry (k : K) (v : V) (es : List (K × V)) : List (K × V) :=
  below Prod.fst k es ++ (k, v) :: atLeast Prod.fst k es

/-- `none` when there is no pair with key `k`. -/
def deleteEntry (k : K) (es : List (K × V)) : Option (List (K × V)) :=
  match atLeast Prod.fst k es with
  | [] => none
  | e :: r => if e.1 = k then some (below Prod.fst k es ++ r) else none

def updateEntry (k : K) (v : V) (es : List (K × V)) : List (K × V) :=
  match atLeast Prod.fst k es with
  | [] => insertEntry k v es
  | e :: r => if e.1 = k then below Prod.fst k es ++ (k, v) :: r else insertEntry k v es

variable {k : K} {es es' : List (K × V)}

/-- A deletion takes out the first pair with the key. -/
theorem deleteEntry_eq_some (h : deleteEntry k es = some es') :
    ∃ v r, es = below Prod.fst k es ++ (k, v) :: r ∧ es' = below Prod.fst k es ++ r := by
  have hsplit := below_append_atLeast Prod.fst k es
  unfold deleteEntry at h
  cases hR : atLeast Prod.fst k es with
  | nil => rw [hR] at h; cases h
  | cons e r =>
    rw [hR] at h hsplit
    simp only at h
    split_ifs at h with hk
    subst hk
    exact ⟨e.2, r, hsplit.symm, (Option.some.inj h).symm⟩

end Multimap

section Lookup

variable [BEq K] [LawfulBEq K] {k k' : K} {v : V} {es es' : List (K × V)}

omit [LinearOrder K] in
theorem lookup_eq_none : es.lookup k = none ↔ k ∉ es.map Prod.fst := by
  simp only [List.lookup_eq_none_iff, bne_iff_ne, List.mem_map, not_exists, not_and]
  exact forall_congr' fun e => forall_congr' fun _ => ne_comm

/-- Keys below `k` are not `k`. -/
theorem lookup_below (k : K) (es : List (K × V)) : (below Prod.fst k es).lookup k = none := by
  rw [lookup_eq_none]
  intro hk
  obtain ⟨e, he, rfl⟩ := List.mem_map.mp hk
  exact lt_irrefl _ (lt_of_mem_below he)

omit [LawfulBEq K] in
theorem lookup_split (k k' : K) (es : List (K × V)) : es.lookup k' =
    ((below Prod.fst k es).lookup k').or ((atLeast Prod.fst k es).lookup k') := by
  rw [← List.lookup_append, below_append_atLeast]

/-- An inserted pair hides the older pairs with its key. -/
theorem lookup_insertEntry (k k' : K) (v : V) (es : List (K × V)) :
    (insertEntry k v es).lookup k' = if k' = k then some v else es.lookup k' := by
  rw [insertEntry, List.lookup_append, List.lookup_cons]
  split_ifs with h
  · subst h; simp [lookup_below]
  · rw [beq_false_of_ne h, ← lookup_split]

/-- What the lower bound of `k` says about `k`: nothing is there, `k` is, or only a larger key is. -/
theorem SortedBy.searchEntry_cases (h : SortedBy Prod.fst es) (k : K) :
    (searchEntry k es = none ∧ es.lookup k = none ∧ ∀ k' ∈ es.map Prod.fst, k' < k) ∨
      (∃ v, searchEntry k es = some (k, v) ∧ es.lookup k = some v ∧ k ∈ es.map Prod.fst) ∨
      ∃ e, searchEntry k es = some e ∧ es.lookup k = none ∧ k ∉ es.map Prod.fst ∧
        ∃ k' ∈ es.map Prod.fst, ¬ k' < k := by
  have hl := lookup_split k k es
  rw [lookup_below, Option.none_or] at hl
  have hsplit := below_append_atLeast Prod.fst k es
  unfold searchEntry
  cases hR : atLeast Prod.fst k es with
  | nil =>
    rw [hR, List.append_nil] at hsplit
    refine Or.inl ⟨rfl, by rw [hl, hR]; rfl, fun k' hk' => ?_⟩
    rw [← hsplit] at hk'
    obtain ⟨e, he, rfl⟩ := List.mem_map.mp hk'
    exact lt_of_mem_below he
  | cons e r =>
    have hmem : e ∈ es := by rw [← hsplit, hR]; simp
    have hle : k ≤ e.1 := h.le_of_mem_atLeast (by rw [hR]; simp)
    rcases hle.eq_or_lt with rfl | hlt
    · refine Or.inr (Or.inl ⟨e.2, rfl, ?_, List.mem_map_of_mem hmem⟩)
      rw [hl, hR, List.lookup_cons, beq_self_eq_true]
    · -- all keys from `e` on are larger than `k`
      have hrest : k ∉ (e :: r).map Prod.fst := by
        intro hk
        obtain ⟨e', he', rfl⟩ := List.mem_map.mp hk
        have hs := h.sublist (List.dropWhile_sublist (p := fun a => decide (a.1 < e'.1)))
        rw [show List.dropWhile _ es = e :: r from hR] at hs
        rcases List.mem_cons.mp he' with rfl | he'
        · exact lt_irrefl _ hlt
        · exact absurd ((List.pairwise_cons.mp hs).1 e' he') (not_le.mpr hlt)
      have hnone : es.lookup k = none := by rw [hl, hR]; exact lookup_eq_none.mpr hrest
      exact Or.inr (Or.inr ⟨e, rfl, hnone, lookup_eq_none.mp hnone, e.1, List.mem_map_of_mem hmem,
        not_lt.mpr hle⟩)

/-- A deletion fails when the key is absent. -/
theorem SortedBy.deleteEntry_eq_none (h : SortedBy Prod.fst es) :
    deleteEntry k es = none ↔ es.lookup k = none := by
  rcases h.searchEntry_cases k with ⟨h1, h2, -⟩ | ⟨v, h1, h2, -⟩ | ⟨e, h1, h2, h3, -⟩
  · refine iff_of_true ?_ h2
    rw [searchEntry, List.head?_eq_none_iff] at h1
    rw [deleteEntry, h1]
  · refine iff_of_false ?_ (by rw [h2]; simp)
    obtain ⟨r, hr⟩ := List.head?_eq_some_iff.mp h1
    rw [deleteEntry, hr]
    simp
  · refine iff_of_true ?_ h2
    obtain ⟨r, hr⟩ := List.head?_eq_some_iff.mp h1
    have hne : e.1 ≠ k := fun he => h3 (List.mem_map.mpr ⟨e, atLeast_subset (by rw [hr]; simp), he⟩)
    rw [deleteEntry, hr]
    simp [hne]

/-- The key is gone after a deletion iff it had one pair. -/
theorem notMem_of_deleteEntry (h : deleteEntry k es = some es') :
    k ∉ es'.map Prod.fst ↔ (es.map Prod.fst).count k ≤ 1 := by
  obtain ⟨v, r, h1, rfl⟩ := deleteEntry_eq_some h
  have hb : k ∉ (below Prod.fst k es).map Prod.fst := lookup_eq_none.mp (lookup_below k es)
  have hcount : (es.map Prod.fst).count k = (r.map Prod.fst).count k + 1 := by
    conv_lhs => rw [h1]
    rw [List.map_append, List.map_cons, List.count_append, List.count_cons_self,
      List.count_eq_zero_of_not_mem hb, Nat.zero_add]
  rw [hcount, List.map_append, List.mem_append]
  constructor
  · intro hk
    rw [List.count_eq_zero_of_not_mem fun hr => hk (Or.inr hr)]
  · intro hle hk
    have := List.count_pos_iff.mpr (hk.resolve_left hb)
    omega

/-- With one pair for the key, only that key changes. -/
theorem lookup_deleteEntry (h : deleteEntry k es = some es') (hc : (es.map Prod.fst).count k ≤ 1) :
    es'.lookup k' = if k' = k then none else es.lookup k' := by
  have hk := (notMem_of_deleteEntry h).mpr hc
  obtain ⟨v, r, h1, rfl⟩ := deleteEntry_eq_some h
  split_ifs with he
  · rw [he]; exact lookup_eq_none.mpr hk
  · conv_rhs => rw [h1]
    rw [List.lookup_append, List.lookup_append, List.lookup_cons, beq_false_of_ne he]

end Lookup

end Csapp.Lib
