import Mathlib.Data.List.Chain
import Mathlib.Data.List.Nodup
import Mathlib.Logic.Function.Basic

/-!
# Lib.Ring — families of circular doubly linked lists

`Ring next prev h xs`: from the head `h`, following `next` visits `xs` and comes back to `h`, and
`prev` undoes every step.  `Rings next prev head F` is a family of disjoint rings, the `i`-th with
head `head i` and members `F i`.  The two edits are `Rings.erase` (unlink a member) and
`Rings.push` (link a new node in front); both are stated for the pointwise updates the list code
performs, and `Rings.congr` moves a family to links that agree on its nodes.
-/

namespace Csapp.Lib

variable {ι α : Type} {next prev next' prev' : α → α} {head : ι → α} {F : ι → List α}

/-- `b` follows `a`, and `a` precedes `b`. -/
def Linked (next prev : α → α) (a b : α) : Prop := next a = b ∧ prev b = a

/-- The circular list with head `h` and members `xs`. -/
def Ring (next prev : α → α) (h : α) (xs : List α) : Prop :=
  List.IsChain (Linked next prev) (h :: xs ++ [h])

/-- The nodes of a family: heads and members. -/
def Node (head : ι → α) (F : ι → List α) (a : α) : Prop := (∃ i, a = head i) ∨ ∃ i, a ∈ F i

/-- A family of disjoint rings. -/
structure Rings (next prev : α → α) (head : ι → α) (F : ι → List α) : Prop where
  ring : ∀ i, Ring next prev (head i) (F i)
  nodup : ∀ i, (F i).Nodup
  disj : ∀ i j a, a ∈ F i → a ∈ F j → i = j
  head_inj : ∀ i j, head i = head j → i = j
  head_notMem : ∀ i j, head i ∉ F j

theorem mem_closed_iff {h b : α} {xs : List α} : b ∈ h :: xs ++ [h] ↔ b ∈ h :: xs := by
  simp only [List.mem_append, List.mem_cons, List.not_mem_nil, or_false]
  exact ⟨fun hb => hb.elim id Or.inl, Or.inl⟩

theorem ring_nil_iff {h : α} : Ring next prev h [] ↔ next h = h ∧ prev h = h := by
  simp [Ring, Linked]

/-- Every node of a ring has its successor and its predecessor in the ring. -/
theorem Ring.node_links {h a : α} {xs : List α} (hr : Ring next prev h xs) (ha : a ∈ h :: xs) :
    next a ∈ h :: xs ∧ prev a ∈ h :: xs ∧ prev (next a) = a ∧ next (prev a) = a := by
  unfold Ring at hr
  have hf := List.isChain_cons_append_singleton_iff_forall₂.mp hr
  have hmem : ∀ b, b ∈ xs ++ [h] ↔ b ∈ h :: xs := by
    intro b; simp [or_comm]
  have hl : ∀ (l l' : List α), List.Forall₂ (Linked next prev) l l' → ∀ a ∈ l,
      next a ∈ l' ∧ prev (next a) = a := by
    intro l l' hll
    induction hll with
    | nil => simp
    | cons hab _ ih =>
      intro a ha
      rcases List.mem_cons.mp ha with rfl | ha
      · obtain ⟨rfl, h2⟩ := hab
        exact ⟨List.mem_cons_self, h2⟩
      · exact ⟨List.mem_cons_of_mem _ (ih a ha).1, (ih a ha).2⟩
  have hr' : ∀ (l l' : List α), List.Forall₂ (Linked next prev) l l' → ∀ b ∈ l',
      prev b ∈ l ∧ next (prev b) = b := by
    intro l l' hll
    induction hll with
    | nil => simp
    | cons hab _ ih =>
      intro b hb
      rcases List.mem_cons.mp hb with rfl | hb
      · obtain ⟨h1, rfl⟩ := hab
        exact ⟨List.mem_cons_self, h1⟩
      · exact ⟨List.mem_cons_of_mem _ (ih b hb).1, (ih b hb).2⟩
  obtain ⟨h1, h2⟩ := hl _ _ hf a ha
  obtain ⟨h3, h4⟩ := hr' _ _ hf a ((hmem a).mpr ha)
  exact ⟨(hmem _).mp h1, h3, h2, h4⟩

/-- Following `next` from `fp` visits `xs` and then meets `h` for the first time. -/
def Path (next : α → α) (h : α) : α → List α → Prop
  | fp, [] => fp = h
  | fp, x :: xs => fp = x ∧ x ≠ h ∧ Path next h (next x) xs

/-- The members of a ring are what a walk from its head visits. -/
theorem Ring.path {h : α} {xs : List α} (hr : Ring next prev h xs) (hh : h ∉ xs) :
    Path next h (next h) xs := by
  unfold Ring at hr
  have key : ∀ (xs : List α) (a : α), h ∉ xs → List.IsChain (Linked next prev) (a :: xs ++ [h]) →
      Path next h (next a) xs := by
    intro xs
    induction xs with
    | nil =>
      intro a _ hc
      exact (List.isChain_cons_cons.mp hc).1.1
    | cons x xs ih =>
      intro a hx hc
      obtain ⟨h1, h2⟩ := List.isChain_cons_cons.mp hc
      exact ⟨h1.1, fun e => hx (e ▸ List.mem_cons_self), ih x (fun e => hx (List.mem_cons_of_mem _ e)) h2⟩
  exact key xs h hh hr

/-- A ring only depends on the links of its nodes. -/
theorem Ring.congr {h : α} {xs : List α} (hr : Ring next prev h xs)
    (hag : ∀ a ∈ h :: xs, next' a = next a ∧ prev' a = prev a) : Ring next' prev' h xs := by
  refine List.IsChain.imp_of_mem_imp (fun a b ha hb hab => ?_) hr
  exact ⟨(hag a (mem_closed_iff.mp ha)).1.trans hab.1, (hag b (mem_closed_iff.mp hb)).2.trans hab.2⟩

namespace Rings

theorem congr (hR : Rings next prev head F)
    (hag : ∀ a, Node head F a → next' a = next a ∧ prev' a = prev a) :
    Rings next' prev' head F where
  ring i := (hR.ring i).congr fun a ha => by
    rcases List.mem_cons.mp ha with rfl | ha
    · exact hag _ (Or.inl ⟨i, rfl⟩)
    · exact hag _ (Or.inr ⟨i, ha⟩)
  nodup := hR.nodup
  disj := hR.disj
  head_inj := hR.head_inj
  head_notMem := hR.head_notMem

/-- The neighbours of a node are nodes, and the two links undo each other there. -/
theorem node_links (hR : Rings next prev head F) {a : α} (ha : Node head F a) :
    Node head F (next a) ∧ Node head F (prev a) ∧ prev (next a) = a ∧ next (prev a) = a := by
  obtain ⟨i, hi⟩ : ∃ i, a ∈ head i :: F i := by
    rcases ha with ⟨i, rfl⟩ | ⟨i, hi⟩
    · exact ⟨i, List.mem_cons_self⟩
    · exact ⟨i, List.mem_cons_of_mem _ hi⟩
  have hnode : ∀ b, b ∈ head i :: F i → Node head F b := by
    intro b hb
    rcases List.mem_cons.mp hb with rfl | hb
    · exact Or.inl ⟨i, rfl⟩
    · exact Or.inr ⟨i, hb⟩
  obtain ⟨h1, h2, h3, h4⟩ := (hR.ring i).node_links hi
  exact ⟨hnode _ h1, hnode _ h2, h3, h4⟩

/-- A member is not its own neighbour: the head lies between it and itself. -/
theorem links_ne_self (hR : Rings next prev head F) {i : ι} {x : α} (hx : x ∈ F i) :
    next x ≠ x ∧ prev x ≠ x := by
  have hr := hR.ring i
  obtain ⟨l, r, hlr⟩ := List.append_of_mem hx
  have hnd := hR.nodup i
  have hh := hR.head_notMem i i
  rw [hlr] at hnd hh
  unfold Ring at hr
  rw [hlr, List.cons_append, List.append_assoc, List.cons_append, List.isChain_cons_split] at hr
  obtain ⟨h1, h2⟩ := hr
  refine ⟨?_, ?_⟩
  · cases r with
    | nil =>
      obtain ⟨⟨h3, -⟩, -⟩ := List.isChain_cons_cons.mp h2
      rw [h3]; rintro rfl; simp at hh
    | cons y r =>
      obtain ⟨⟨h3, -⟩, -⟩ := List.isChain_cons_cons.mp h2
      rw [h3]; rintro rfl; simp [List.nodup_append] at hnd
  · rcases List.eq_nil_or_concat' l with rfl | ⟨l, y, rfl⟩
    · obtain ⟨⟨-, h3⟩, -⟩ := List.isChain_cons_cons.mp h1
      rw [h3]; rintro rfl; simp at hh
    · rw [List.append_assoc, List.singleton_append, List.isChain_cons_append_cons_cons] at h1
      rw [h1.2.1.2]; rintro rfl; simp [List.nodup_append] at hnd

section Edits

variable [DecidableEq α]

/-- Away from `x`, unlinking `x` keeps every link: a link out of the predecessor or into the
successor of `x` would have to lead to or come from `x`. -/
theorem linked_unlink {a b x : α} (hp : next (prev x) = x) (hn : prev (next x) = x) (ha : a ≠ x)
    (hb : b ≠ x) (hab : Linked next prev a b) :
    Linked (Function.update next (prev x) (next x)) (Function.update prev (next x) (prev x)) a b := by
  obtain ⟨h1, h2⟩ := hab
  have hap : a ≠ prev x := by rintro rfl; exact hb (h1.symm.trans hp)
  have hbn : b ≠ next x := by rintro rfl; exact ha (h2.symm.trans hn)
  exact ⟨by rw [Function.update_of_ne hap, h1], by rw [Function.update_of_ne hbn, h2]⟩

/-- **Unlink** the member `x`. -/
theorem erase (hR : Rings next prev head F) {i : ι} {x : α} (hx : x ∈ F i) :
    Rings (Function.update next (prev x) (next x)) (Function.update prev (next x) (prev x)) head
      (fun j => (F j).erase x) where
  ring j := by
    obtain ⟨-, -, hn, hp⟩ := hR.node_links (Or.inr ⟨i, hx⟩)
    have hhx : ∀ k, head k ≠ x := fun k h => hR.head_notMem k i (h ▸ hx)
    by_cases hj : x ∈ F j
    · -- the ring of `x`: split around `x`, drop it, close the gap
      obtain ⟨l, r, hxl, hlr, her⟩ := List.exists_erase_eq hj
      rw [her]
      have hnd := hR.nodup j
      rw [hlr] at hnd
      have hxr : x ∉ r := by
        intro h
        simp [List.nodup_append, h] at hnd
      have hr := hR.ring j
      unfold Ring at hr ⊢
      obtain ⟨A, p, hA⟩ : ∃ A p, head j :: l = A ++ [p] := by
        rcases List.eq_nil_or_concat' (head j :: l) with h | ⟨A, p, h⟩
        · simp at h
        · exact ⟨A, p, h⟩
      obtain ⟨n, B, hB⟩ : ∃ n B, r ++ [head j] = n :: B := by
        cases r with
        | nil => exact ⟨_, _, rfl⟩
        | cons n r => exact ⟨_, _, rfl⟩
      have hxA : ∀ a ∈ A ++ [p], a ≠ x := by
        intro a ha
        rw [← hA] at ha
        rcases List.mem_cons.mp ha with rfl | ha
        · exact hhx j
        · rintro rfl; exact hxl ha
      have hxB : ∀ a ∈ n :: B, a ≠ x := by
        intro a ha
        rw [← hB] at ha
        rcases List.mem_append.mp ha with ha | ha
        · rintro rfl; exact hxr ha
        · rw [List.mem_singleton.mp ha]; exact hhx j
      have hold : head j :: F j ++ [head j] = A ++ p :: x :: n :: B := by
        calc head j :: F j ++ [head j] = (head j :: l) ++ x :: (r ++ [head j]) := by simp [hlr]
          _ = A ++ p :: x :: n :: B := by rw [hA, hB]; simp
      have hnew : head j :: (l ++ r) ++ [head j] = A ++ p :: n :: B := by
        calc head j :: (l ++ r) ++ [head j] = (head j :: l) ++ (r ++ [head j]) := by simp
          _ = A ++ p :: n :: B := by rw [hA, hB]; simp
      rw [hold, List.isChain_append_cons_cons, List.isChain_cons_cons] at hr
      obtain ⟨hcA, hpx, hxn, hcB⟩ := hr
      have ep : prev x = p := hpx.2
      have en : next x = n := hxn.1
      rw [hnew, List.isChain_append_cons_cons]
      refine ⟨hcA.imp_of_mem_imp fun a b ha hb => linked_unlink hp hn (hxA a ha) (hxA b hb), ?_,
        hcB.imp_of_mem_imp fun a b ha hb => linked_unlink hp hn (hxB a ha) (hxB b hb)⟩
      rw [ep, en]
      exact ⟨Function.update_self .., Function.update_self ..⟩
    · rw [List.erase_of_not_mem hj]
      have hne : ∀ a ∈ head j :: F j ++ [head j], a ≠ x := by
        intro a ha
        rcases List.mem_cons.mp (mem_closed_iff.mp ha) with rfl | ha
        · exact hhx j
        · rintro rfl; exact hj ha
      exact (hR.ring j).imp_of_mem_imp fun a b ha hb => linked_unlink hp hn (hne a ha) (hne b hb)
  nodup j := (hR.nodup j).erase x
  disj j k a hj hk := hR.disj j k a (List.mem_of_mem_erase hj) (List.mem_of_mem_erase hk)
  head_inj := hR.head_inj
  head_notMem j k h := hR.head_notMem j k (List.mem_of_mem_erase h)

theorem mem_erase_iff (hR : Rings next prev head F) {j : ι} {x a : α} :
    a ∈ (F j).erase x ↔ a ∈ F j ∧ a ≠ x := by
  rw [(hR.nodup j).mem_erase_iff, and_comm]

/-- Linking `x` behind `h` keeps every link that does not leave `h` and does not touch `x`. -/
theorem linked_link {a b x h : α} (hp : prev (next h) = h) (ha : a ≠ x) (hb : b ≠ x) (hah : a ≠ h)
    (hab : Linked next prev a b) :
    Linked (Function.update (Function.update next x (next h)) h x)
      (Function.update (Function.update prev x h) (next h) x) a b := by
  obtain ⟨h1, h2⟩ := hab
  have hbn : b ≠ next h := by
    rintro rfl
    exact hah (h2.symm.trans hp)
  exact ⟨by rw [Function.update_of_ne hah, Function.update_of_ne ha, h1],
    by rw [Function.update_of_ne hbn, Function.update_of_ne hb, h2]⟩

variable [DecidableEq ι]

omit [DecidableEq α] in
theorem mem_push_iff {a x : α} {i j : ι} :
    a ∈ Function.update F i (x :: F i) j ↔ a ∈ F j ∨ (a = x ∧ j = i) := by
  by_cases hj : j = i
  · subst hj
    rw [Function.update_self, List.mem_cons, or_comm, and_iff_left rfl]
  · rw [Function.update_of_ne hj, or_iff_left fun h => hj h.2]

/-- **Link** the new node `x` in front of ring `i`. -/
theorem push (hR : Rings next prev head F) {i : ι} {x : α} (hx : ¬ Node head F x) :
    Rings (Function.update (Function.update next x (next (head i))) (head i) x)
      (Function.update (Function.update prev x (head i)) (next (head i)) x) head
      (Function.update F i (x :: F i)) where
  ring j := by
    obtain ⟨hnn, -, hpn, -⟩ := hR.node_links (Or.inl ⟨i, rfl⟩)
    have hxh : head i ≠ x := fun h => hx (Or.inl ⟨i, h.symm⟩)
    have hxn : next (head i) ≠ x := fun h => hx (h ▸ hnn)
    have hne : ∀ k, ∀ a ∈ head k :: F k, a ≠ x := by
      rintro k a ha rfl
      rcases List.mem_cons.mp ha with rfl | ha
      · exact hx (Or.inl ⟨k, rfl⟩)
      · exact hx (Or.inr ⟨k, ha⟩)
    by_cases hj : j = i
    · subst hj
      rw [Function.update_self]
      have hr := hR.ring j
      unfold Ring at hr ⊢
      obtain ⟨n, B, hB⟩ : ∃ n B, F j ++ [head j] = n :: B := by
        cases F j with
        | nil => exact ⟨_, _, rfl⟩
        | cons n r => exact ⟨_, _, rfl⟩
      have hmemB : ∀ a ∈ n :: B, a ≠ x := by
        intro a ha
        rw [← hB] at ha
        exact hne j a (by simpa [or_comm] using ha)
      rw [List.cons_append, hB, List.isChain_cons_cons] at hr
      obtain ⟨hhn, hcB⟩ := hr
      have en : next (head j) = n := hhn.1
      have hnB : n ∉ B := by
        have hnd : (F j ++ [head j]).Nodup := by
          rw [List.nodup_append]
          exact ⟨hR.nodup j, by simp, fun a ha b hb => by
            rw [List.mem_singleton.mp hb]; rintro rfl; exact hR.head_notMem j j ha⟩
        rw [hB] at hnd
        exact (List.nodup_cons.mp hnd).1
      have hcons : head j :: (x :: F j) ++ [head j] = head j :: x :: n :: B := by
        rw [← hB]; simp
      rw [hcons, List.isChain_cons_cons, List.isChain_cons_cons]
      refine ⟨⟨Function.update_self .., ?_⟩, ⟨?_, ?_⟩, ?_⟩
      · rw [Function.update_of_ne hxn.symm, Function.update_self]
      · rw [Function.update_of_ne hxh.symm, Function.update_self, en]
      · rw [en, Function.update_self]
      · refine hcB.imp_of_mem_tail_imp fun a b ha hb hab =>
          linked_link hpn (hmemB a ha) (hmemB b (List.mem_cons_of_mem _ hb)) ?_ hab
        rintro rfl
        exact hnB (en ▸ hab.1 ▸ hb)
    · rw [Function.update_of_ne hj]
      refine (hR.ring j).imp_of_mem_imp fun a b ha hb =>
        linked_link hpn (hne j a (mem_closed_iff.mp ha)) (hne j b (mem_closed_iff.mp hb)) ?_
      rintro rfl
      rcases List.mem_cons.mp (mem_closed_iff.mp ha) with h | h
      · exact hj (hR.head_inj _ _ h).symm
      · exact hR.head_notMem i j h
  nodup j := by
    by_cases hj : j = i
    · subst hj
      rw [Function.update_self, List.nodup_cons]
      exact ⟨fun h => hx (Or.inr ⟨j, h⟩), hR.nodup j⟩
    · rw [Function.update_of_ne hj]; exact hR.nodup j
  disj j k a hj hk := by
    have hnot : ∀ {l}, a ∈ F l → a ≠ x := by
      rintro l hl rfl
      exact hx (Or.inr ⟨l, hl⟩)
    rcases mem_push_iff.mp hj with hj | ⟨ha, rfl⟩
    · rcases mem_push_iff.mp hk with hk | ⟨ha, -⟩
      · exact hR.disj j k a hj hk
      · exact absurd ha (hnot hj)
    · rcases mem_push_iff.mp hk with hk | ⟨-, rfl⟩
      · exact absurd ha (hnot hk)
      · rfl
  head_inj := hR.head_inj
  head_notMem j k h := by
    rcases mem_push_iff.mp h with h | ⟨h, -⟩
    · exact hR.head_notMem j k h
    · exact hx (Or.inl ⟨j, h.symm⟩)

end Edits

end Rings

end Csapp.Lib
