import Csapp.Lib.SortedMap

/-!
# Lib.Firsts — the first element with each key, and blocks of open content

`firsts key seen l` are the elements of `l` whose key occurs neither in `seen` nor before them; sorted by their
keys they are in strict order (`strict_sort_firsts`).  `joined c bs` are blocks one behind the other, each with
the content `c` of an index or with none, and with something added behind it.  For all contents of given lengths
that is the content of `is` only if nothing is added and the indices are `is` (`joined_iff`).
-/

namespace Csapp.Lib

/-! ## The first element with each key -/

section Firsts

variable {α β K O : Type*} [DecidableEq K] {key : α → K}

def firsts (key : α → K) : List K → List α → List α
  | _, [] => []
  | seen, a :: l => if key a ∈ seen then firsts key seen l else a :: firsts key (key a :: seen) l

theorem firsts_map (key : α → K) (g : β → α) : ∀ (seen : List K) (l : List β),
    firsts key seen (l.map g) = (firsts (fun b => key (g b)) seen l).map g
  | _, [] => rfl
  | seen, b :: l => by
    rw [List.map_cons, firsts, firsts, firsts_map key g seen l, firsts_map key g (key (g b) :: seen) l]
    split_ifs <;> rfl

/-- An element is kept if it is the first one that `find?` finds for its key. -/
theorem mem_firsts {a : α} : ∀ {seen : List K} {l : List α},
    a ∈ firsts key seen l ↔ key a ∉ seen ∧ l.find? (fun b => key b = key a) = some a
  | seen, [] => by simp [firsts]
  | seen, b :: l => by
    rw [firsts, List.find?_cons]
    by_cases hb : key b ∈ seen
    · rw [if_pos hb, mem_firsts]
      refine and_congr_right fun ha => ?_
      have hne : key b ≠ key a := fun heq => ha (heq ▸ hb)
      rw [decide_eq_false hne]
    · rw [if_neg hb, List.mem_cons, mem_firsts, List.mem_cons, not_or]
      by_cases heq : key b = key a
      · rw [decide_eq_true heq]
        constructor
        · rintro (rfl | ⟨⟨hne, -⟩, -⟩)
          · exact ⟨hb, rfl⟩
          · exact absurd heq.symm hne
        · rintro ⟨-, h⟩
          exact Or.inl (Option.some.inj h).symm
      · rw [decide_eq_false heq]
        constructor
        · rintro (rfl | ⟨⟨-, h1⟩, h2⟩)
          · exact absurd rfl heq
          · exact ⟨h1, h2⟩
        · rintro ⟨h1, h2⟩
          exact Or.inr ⟨⟨Ne.symm heq, h1⟩, h2⟩

theorem nodup_firsts : ∀ (seen : List K) (l : List α), ((firsts key seen l).map key).Nodup
  | _, [] => List.nodup_nil
  | seen, a :: l => by
    rw [firsts]
    split_ifs
    · exact nodup_firsts seen l
    · refine List.nodup_cons.mpr ⟨?_, nodup_firsts (key a :: seen) l⟩
      rw [List.mem_map]
      rintro ⟨b, hb, heq⟩
      exact (mem_firsts.mp hb).1 (heq ▸ List.mem_cons_self)

/-- In the order of the keys they are in strict order, whatever sorts them. -/
theorem strict_sort_firsts [LinearOrder O] {f : α → O} {le : α → α → Bool} (hf : ∀ a b, f a = f b → key a = key b)
    (hle : ∀ a b, le a b = true ↔ f a ≤ f b) (l : List α) : StrictBy f ((firsts key [] l).mergeSort le) := by
  have hsorted : SortedBy f ((firsts key [] l).mergeSort le) := by
    refine List.Pairwise.imp (fun {a b} hab => (hle a b).mp hab) (List.pairwise_mergeSort ?_ ?_ _)
    · intro a b c hab hbc
      exact (hle a c).mpr (le_trans ((hle a b).mp hab) ((hle b c).mp hbc))
    · intro a b
      rw [Bool.or_eq_true, hle, hle]
      exact le_total (f a) (f b)
  refine hsorted.strict ?_
  have hkeys : ((firsts key [] l).map key).Nodup := nodup_firsts [] l
  have hnodup : ((firsts key [] l).map f).Nodup :=
    List.pairwise_map.mpr (List.Pairwise.imp (fun {a b} hne heq => hne (hf a b heq)) (List.pairwise_map.mp hkeys))
  exact ((List.mergeSort_perm _ le).map f).nodup_iff.mpr hnodup

end Firsts

/-! ## Blocks -/

section Blocks

variable {ι β : Type*} {len : ι → ℕ} {f : (ι → List β) → List β} {is : List ι}

/-- Contents of these lengths. -/
def HasLengths (len : ι → ℕ) (c : ι → List β) : Prop := ∀ i, (c i).length = len i

def joined (c : ι → List β) (bs : List (Option ι × List β)) : List β :=
  bs.flatMap fun b => b.1.elim [] c ++ b.2

theorem joined_eq (c : ι → List β) : ∀ (bs : List (Option ι × List β)), (∀ b ∈ bs, b.2 = []) →
    joined c bs = (bs.filterMap Prod.fst).flatMap c
  | [], _ => rfl
  | (o, added) :: bs, h => by
    have hnil : added = [] := h _ List.mem_cons_self
    have ih := joined_eq c bs fun b hb => h b (List.mem_cons_of_mem _ hb)
    rw [joined, List.flatMap_cons, ← joined, ih, hnil]
    cases o <;> simp

theorem HasLengths.cons (hlen : ∀ i, 0 < len i) {c : ι → List β} (hc : HasLengths len c) (i : ι) :
    ∃ b t, c i = b :: t := by
  refine List.exists_cons_of_ne_nil (List.length_pos_iff.mp ?_)
  rw [hc i]
  exact hlen i

variable [Nontrivial β]

/-- What is added in front shows, since the content may begin otherwise. -/
theorem added_nil (hlen : ∀ i, 0 < len i) {added : List β}
    (h : ∀ c, HasLengths len c → added ++ f c = is.flatMap c) : added = [] := by
  cases added with
  | nil => rfl
  | cons b added =>
    obtain ⟨x, hx⟩ := exists_ne b
    have hc : HasLengths len fun i => List.replicate (len i) x := fun i => List.length_replicate
    have hall := h _ hc
    cases is with
    | nil => cases hall
    | cons i is =>
      obtain ⟨y, t, hy⟩ := hc.cons hlen i
      have hmem : y ∈ List.replicate (len i) x := hy ▸ List.mem_cons_self
      rw [List.flatMap_cons, hy, List.cons_append, List.cons_append] at hall
      exact absurd ((List.eq_of_mem_replicate hmem).symm.trans (List.cons.inj hall).1.symm) hx

/-- The first block has the first index, since the two contents may differ. -/
theorem index_eq [DecidableEq ι] (hlen : ∀ i, 0 < len i) {i : ι}
    (h : ∀ c, HasLengths len c → c i ++ f c = is.flatMap c) :
    ∃ is', is = i :: is' ∧ ∀ c, HasLengths len c → f c = is'.flatMap c := by
  obtain ⟨x, y, hxy⟩ := exists_pair_ne β
  have hc : HasLengths len fun j => List.replicate (len j) (if j = i then x else y) := fun i => List.length_replicate
  have hall := h _ hc
  cases is with
  | nil =>
    obtain ⟨b, t, hb⟩ := hc.cons hlen i
    rw [hb] at hall
    cases hall
  | cons j is =>
    have hij : i = j := by
      by_contra hne
      obtain ⟨b, t, hb⟩ := hc.cons hlen i
      obtain ⟨b', t', hb'⟩ := hc.cons hlen j
      have hmem := List.eq_of_mem_replicate (hb ▸ List.mem_cons_self)
      have hmem' := List.eq_of_mem_replicate (hb' ▸ List.mem_cons_self)
      rw [if_pos rfl] at hmem
      rw [if_neg (Ne.symm hne)] at hmem'
      rw [List.flatMap_cons, hb, hb', List.cons_append, List.cons_append] at hall
      exact hxy (hmem.symm.trans ((List.cons.inj hall).1.trans hmem'))
    subst hij
    refine ⟨is, rfl, fun c hc => ?_⟩
    have hall := h c hc
    rw [List.flatMap_cons] at hall
    exact List.append_cancel_left hall

theorem joined_imp [DecidableEq ι] (hlen : ∀ i, 0 < len i) : ∀ (bs : List (Option ι × List β)) (is : List ι),
    (∀ c, HasLengths len c → joined c bs = is.flatMap c) →
      (∀ b ∈ bs, b.2 = []) ∧ bs.filterMap Prod.fst = is
  | [], is, h => by
    obtain ⟨x, -⟩ := exists_pair_ne β
    have hc : HasLengths len fun i => List.replicate (len i) x := fun i => List.length_replicate
    cases is with
    | nil => exact ⟨fun b hb => absurd hb List.not_mem_nil, rfl⟩
    | cons i is =>
      obtain ⟨b, t, hb⟩ := hc.cons hlen i
      have hall := h _ hc
      rw [List.flatMap_cons, hb] at hall
      cases hall
  | (o, added) :: bs, is, h => by
    cases o with
    | none =>
      have hnil := added_nil hlen (f := fun c => joined c bs) h
      subst hnil
      obtain ⟨h1, h2⟩ := joined_imp hlen bs is h
      exact ⟨List.forall_mem_cons.mpr ⟨rfl, h1⟩, h2⟩
    | some i =>
      have hfirst : ∀ c, HasLengths len c → c i ++ (added ++ joined c bs) = is.flatMap c := by
        intro c hc
        rw [← List.append_assoc]
        exact h c hc
      obtain ⟨is', rfl, hrest⟩ := index_eq hlen hfirst
      have hnil := added_nil hlen hrest
      subst hnil
      obtain ⟨h1, h2⟩ := joined_imp hlen bs is' hrest
      exact ⟨List.forall_mem_cons.mpr ⟨rfl, h1⟩, by rw [← h2]; rfl⟩

/-- **Blocks join to the content of `is`**, whatever it is, iff nothing is added to them and `is` are their
indices. -/
theorem joined_iff [DecidableEq ι] (hlen : ∀ i, 0 < len i) (bs : List (Option ι × List β)) (is : List ι) :
    (∀ c, HasLengths len c → joined c bs = is.flatMap c) ↔
      (∀ b ∈ bs, b.2 = []) ∧ bs.filterMap Prod.fst = is := by
  refine ⟨joined_imp hlen bs is, ?_⟩
  rintro ⟨h, rfl⟩ c -
  exact joined_eq c bs h

end Blocks

end Csapp.Lib
