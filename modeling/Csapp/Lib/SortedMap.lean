import Csapp.Lib.SortedList
import Mathlib.Data.List.Perm.Basic
import Mathlib.Logic.Function.Basic

/-!
# Lib.SortedMap — maps as lists with strictly increasing keys

`StrictBy f l` says that the keys of `l` increase strictly.  On such a list of pairs `updateEntry` and
`deleteEntry` are the operations of a map (`lookup_updateEntry`, `lookup_deleteEntry_strict`), and they
keep the list strict.  `MapCall` are the calls of a map and `MapCall.apply` is what they do to it.
-/

namespace Csapp.Lib

variable {α K V : Type*} [LinearOrder K]

def StrictBy (f : α → K) (l : List α) : Prop := l.Pairwise fun a b => f a < f b

section Strict

variable {f : α → K} {l l' : List α}

theorem StrictBy.nodup (h : StrictBy f l) : (l.map f).Nodup :=
  List.pairwise_map.mpr (List.Pairwise.imp ne_of_lt h)

theorem SortedBy.strict (h : SortedBy f l) (hn : (l.map f).Nodup) : StrictBy f l :=
  (List.Pairwise.and h (List.pairwise_map.mp hn)).imp fun hab => lt_of_le_of_ne hab.1 hab.2

/-- There is only one strict arrangement. -/
theorem StrictBy.eq_of_perm (h : StrictBy f l) (h' : StrictBy f l') (hp : l.Perm l') : l = l' :=
  hp.eq_of_pairwise (fun _ _ _ _ hab hba => absurd hba (not_lt_of_gt hab)) h h'

/-- The keys are in the order of the positions. -/
theorem StrictBy.lt_iff {a b : α} {i j : ℕ} (h : StrictBy f l) (hi : l[i]? = some a) (hj : l[j]? = some b) :
    f a < f b ↔ i < j := by
  obtain ⟨hi', rfl⟩ := List.getElem?_eq_some_iff.mp hi
  obtain ⟨hj', rfl⟩ := List.getElem?_eq_some_iff.mp hj
  have hord := List.pairwise_iff_getElem.mp h
  refine ⟨fun hlt => ?_, fun hlt => hord i j hi' hj' hlt⟩
  rcases Nat.lt_trichotomy i j with hij | rfl | hij
  · exact hij
  · exact absurd hlt (lt_irrefl _)
  · exact absurd hlt (lt_asymm (hord j i hj' hi' hij))

theorem StrictBy.le_iff {a b : α} {i j : ℕ} (h : StrictBy f l) (hi : l[i]? = some a) (hj : l[j]? = some b) :
    f a ≤ f b ↔ i ≤ j := by
  rw [← not_lt, h.lt_iff hj hi, Nat.not_lt]

/-- Where no key is below `k`, only the first one can be `k`. -/
theorem StrictBy.ne_of_head {k : K} (h : StrictBy f l) (hge : ∀ a ∈ l, k ≤ f a)
    (hhead : ∀ a, l[0]? = some a → f a ≠ k) : ∀ a ∈ l, f a ≠ k := by
  cases l with
  | nil => exact fun a ha => absurd ha List.not_mem_nil
  | cons b l =>
    intro a ha
    rcases List.mem_cons.mp ha with rfl | ha
    · exact hhead a rfl
    · have hlt := (List.pairwise_cons.mp h).1 a ha
      exact ((hge b List.mem_cons_self).trans_lt hlt).ne'

end Strict

/-! ## Pairs -/

section Pairs

variable {k : K} {v : V} {e : K × V} {es es' : List (K × V)}

theorem updateEntry_nil (k : K) (v : V) : updateEntry k v [] = [(k, v)] := rfl

theorem updateEntry_cons (k : K) (v : V) (e : K × V) (es : List (K × V)) : updateEntry k v (e :: es) =
    if e.1 < k then e :: updateEntry k v es else if e.1 = k then (k, v) :: es else (k, v) :: e :: es := by
  by_cases h : e.1 < k
  · rw [if_pos h]
    obtain ⟨h2, h1⟩ := below_cons_of_lt (l := es) h
    unfold updateEntry insertEntry
    rw [h1, h2]
    cases atLeast Prod.fst k es with
    | nil => rfl
    | cons e' r =>
      dsimp only
      split_ifs <;> rfl
  · rw [if_neg h]
    obtain ⟨h2, h1⟩ := below_cons_of_not_lt (l := es) h
    unfold updateEntry insertEntry
    rw [h1, h2]
    rfl

theorem deleteEntry_cons (k : K) (e : K × V) (es : List (K × V)) : deleteEntry k (e :: es) =
    if e.1 < k then (deleteEntry k es).map (e :: ·) else if e.1 = k then some es else none := by
  by_cases h : e.1 < k
  · rw [if_pos h]
    obtain ⟨h2, h1⟩ := below_cons_of_lt (l := es) h
    unfold deleteEntry
    rw [h1, h2]
    cases atLeast Prod.fst k es with
    | nil => rfl
    | cons e' r =>
      dsimp only
      split_ifs <;> rfl
  · rw [if_neg h]
    obtain ⟨h2, h1⟩ := below_cons_of_not_lt (l := es) h
    unfold deleteEntry
    rw [h1, h2]
    rfl

section Cons

variable (es)

theorem updateEntry_cons_lt (h : e.1 < k) (v : V) : updateEntry k v (e :: es) = e :: updateEntry k v es := by
  rw [updateEntry_cons, if_pos h]

theorem updateEntry_cons_eq (h : e.1 = k) (v : V) : updateEntry k v (e :: es) = (k, v) :: es := by
  rw [updateEntry_cons, if_neg h.not_lt, if_pos h]

theorem updateEntry_cons_gt (h : k < e.1) (v : V) : updateEntry k v (e :: es) = (k, v) :: e :: es := by
  rw [updateEntry_cons, if_neg (lt_asymm h), if_neg h.ne']

theorem deleteEntry_cons_lt (h : e.1 < k) : deleteEntry k (e :: es) = (deleteEntry k es).map (e :: ·) := by
  rw [deleteEntry_cons, if_pos h]

theorem deleteEntry_cons_eq (h : e.1 = k) : deleteEntry k (e :: es) = some es := by
  rw [deleteEntry_cons, if_neg h.not_lt, if_pos h]

end Cons

/-- Nothing but the pair for `k` is new. -/
theorem mem_updateEntry (h : e ∈ updateEntry k v es) : e = (k, v) ∨ e ∈ es := by
  induction es with
  | nil => exact Or.inl (List.mem_singleton.mp h)
  | cons e' es ih =>
    rw [updateEntry_cons] at h
    split_ifs at h
    · rcases List.mem_cons.mp h with rfl | h
      · exact Or.inr List.mem_cons_self
      · exact (ih h).imp_right (List.mem_cons_of_mem e')
    · rcases List.mem_cons.mp h with rfl | h
      · exact Or.inl rfl
      · exact Or.inr (List.mem_cons_of_mem e' h)
    · exact List.mem_cons.mp h

theorem mem_keys_updateEntry (k : K) (v : V) (es : List (K × V)) : k ∈ (updateEntry k v es).map Prod.fst := by
  induction es with
  | nil => exact List.mem_cons_self
  | cons e es ih =>
    rw [updateEntry_cons]
    split_ifs
    · exact List.mem_cons_of_mem _ ih
    · exact List.mem_cons_self
    · exact List.mem_cons_self

/-- A new key is one more pair. -/
theorem updateEntry_perm (v : V) (h : k ∉ es.map Prod.fst) : (updateEntry k v es).Perm (es ++ [(k, v)]) := by
  induction es with
  | nil => exact List.Perm.refl _
  | cons e es ih =>
    rw [List.map_cons, List.mem_cons, not_or] at h
    rw [updateEntry_cons, if_neg (Ne.symm h.1)]
    split_ifs
    · exact (ih h.2).cons e
    · exact (List.perm_append_singleton _ _).symm

theorem strict_updateEntry (h : StrictBy Prod.fst es) (k : K) (v : V) :
    StrictBy Prod.fst (updateEntry k v es) := by
  induction es with
  | nil => exact List.pairwise_singleton _ _
  | cons e es ih =>
    obtain ⟨h1, h2⟩ := List.pairwise_cons.mp h
    rw [updateEntry_cons]
    split_ifs with hlt heq
    · refine List.pairwise_cons.mpr ⟨fun e' he' => ?_, ih h2⟩
      rcases mem_updateEntry he' with rfl | he'
      · exact hlt
      · exact h1 e' he'
    · subst heq
      exact List.pairwise_cons.mpr ⟨h1, h2⟩
    · -- the key is smaller than the first one
      have hk : k < e.1 := lt_of_le_of_ne (not_lt.mp hlt) (Ne.symm heq)
      refine List.pairwise_cons.mpr ⟨fun e' he' => ?_, h⟩
      rcases List.mem_cons.mp he' with rfl | he'
      · exact hk
      · exact hk.trans (h1 e' he')

theorem strict_deleteEntry (h : StrictBy Prod.fst es) (hd : deleteEntry k es = some es') :
    StrictBy Prod.fst es' := by
  obtain ⟨v, r, h1, rfl⟩ := deleteEntry_eq_some hd
  rw [h1] at h
  exact List.Pairwise.sublist (List.Sublist.append_left (List.sublist_cons_self _ _) _) h

end Pairs

/-! ## Lookup -/

section Lookup

variable [BEq K] [LawfulBEq K] {k k' : K} {v : V} {es es' : List (K × V)}

theorem lookup_updateEntry (k k' : K) (v : V) (es : List (K × V)) :
    (updateEntry k v es).lookup k' = if k' = k then some v else es.lookup k' := by
  induction es with
  | nil =>
    rw [updateEntry_nil, List.lookup_cons, List.lookup_nil]
    by_cases hk : k' = k
    · rw [if_pos hk, hk, beq_self_eq_true]
    · rw [if_neg hk, beq_false_of_ne hk]
  | cons e es ih =>
    rw [updateEntry_cons, List.lookup_cons]
    by_cases hk : k' = k
    · rw [if_pos hk] at ih ⊢
      subst hk
      split_ifs with hlt heq
      · rw [List.lookup_cons, beq_false_of_ne hlt.ne', ih]
      · rw [List.lookup_cons, beq_self_eq_true]
      · rw [List.lookup_cons, beq_self_eq_true]
    · rw [if_neg hk] at ih ⊢
      split_ifs with hlt heq
      · rw [List.lookup_cons, ih]
      · subst heq
        rw [List.lookup_cons, beq_false_of_ne hk]
      · rw [List.lookup_cons, beq_false_of_ne hk, List.lookup_cons]

omit [LinearOrder K] in
/-- With distinct keys, the pairs are what `lookup` finds. -/
theorem mem_iff_lookup (h : (es.map Prod.fst).Nodup) : (k, v) ∈ es ↔ es.lookup k = some v := by
  induction es with
  | nil => simp
  | cons e es ih =>
    obtain ⟨h1, h2⟩ := List.nodup_cons.mp h
    rw [List.lookup_cons, List.mem_cons]
    by_cases hk : k = e.1
    · subst hk
      rw [beq_self_eq_true]
      constructor
      · rintro (h3 | h3)
        · rw [← h3]
        · exact absurd (List.mem_map_of_mem h3) h1
      · intro h3
        exact Or.inl (Prod.ext rfl (Option.some.inj h3).symm)
    · rw [beq_false_of_ne hk]
      constructor
      · rintro (h3 | h3)
        · exact absurd (congrArg Prod.fst h3) hk
        · exact (ih h2).mp h3
      · intro h3
        exact Or.inr ((ih h2).mpr h3)

theorem lookup_deleteEntry_strict (h : StrictBy Prod.fst es) (hd : deleteEntry k es = some es') :
    es'.lookup k' = if k' = k then none else es.lookup k' :=
  lookup_deleteEntry hd (List.nodup_iff_count.mp h.nodup k)

end Lookup

/-! ## Calls -/

inductive MapCall (K V : Type*)
  | put (key : K) (value : V)
  | delete (key : K)
  deriving DecidableEq

/-- A map overwrites on `put`. -/
def MapCall.apply (m : K → Option V) : MapCall K V → K → Option V
  | .put key value => Function.update m key (some value)
  | .delete key => Function.update m key none

/-- The pairs are those of the map, in order. -/
structure Represents [BEq K] (es : List (K × V)) (m : K → Option V) : Prop where
  strict : StrictBy Prod.fst es
  lookup : ∀ k, es.lookup k = m k

section Represents

variable [BEq K] [LawfulBEq K] {k : K} {v : V} {es es' : List (K × V)} {m : K → Option V}

omit [LawfulBEq K] in
theorem Represents.nil : Represents ([] : List (K × V)) fun _ => none := ⟨List.Pairwise.nil, fun _ => rfl⟩

theorem Represents.mem_iff (h : Represents es m) : (k, v) ∈ es ↔ m k = some v := by
  rw [← h.lookup]
  exact mem_iff_lookup h.strict.nodup

theorem Represents.put (h : Represents es m) (k : K) (v : V) :
    Represents (updateEntry k v es) ((MapCall.put k v).apply m) := by
  refine ⟨strict_updateEntry h.strict k v, fun k' => ?_⟩
  rw [lookup_updateEntry, h.lookup, MapCall.apply, Function.update_apply]

theorem Represents.delete (h : Represents es m) (hd : deleteEntry k es = some es') :
    Represents es' ((MapCall.delete k).apply m) := by
  refine ⟨strict_deleteEntry h.strict hd, fun k' => ?_⟩
  rw [lookup_deleteEntry_strict h.strict hd, h.lookup, MapCall.apply, Function.update_apply]

omit [LawfulBEq K] in
/-- An absent key is not there to delete. -/
theorem Represents.delete_absent (h : Represents es m) (hk : es.lookup k = none) :
    Represents es ((MapCall.delete k).apply m) := by
  refine ⟨h.strict, fun k' => ?_⟩
  rw [MapCall.apply, Function.update_apply, h.lookup]
  split_ifs with he
  · rw [he, ← h.lookup, hk]
  · rfl

/-- What can be deleted is present. -/
theorem isSome_of_deleteEntry (h : StrictBy Prod.fst es) (hd : deleteEntry k es = some es') :
    (es.lookup k).isSome = true := by
  obtain ⟨v, r, h1, -⟩ := deleteEntry_eq_some hd
  have hmem : (k, v) ∈ es := by
    rw [h1]
    exact List.mem_append_right _ List.mem_cons_self
  rw [(mem_iff_lookup h.nodup).mp hmem, Option.isSome_some]

end Represents

end Csapp.Lib
