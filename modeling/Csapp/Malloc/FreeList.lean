import Csapp.Lib.Ring
import Csapp.Lib.Best
import Csapp.Malloc.Blocks

/-!
# Malloc.FreeList — the segregated free lists in memory

`FreeLists A m F`: the words at the list heads and in the list nodes of memory `m` form ten rings
with members `F 0, …, F 9`.  `listErase_spec` and `listPushFront_spec` are the two edits, each with
its frame (only link words of nodes are written).  Then the size classes: they partition the sizes
(`sizeClasses_partition`).  Last, the search: `bestFitFrom_spec` says what
`segregated_find_best_fit` returns over any family of lists.
-/

namespace Csapp.Malloc

open Csapp.Lib

/-- Address of the `i`-th list head. -/
def headOf (A : Arena) (i : Fin 10) : ℕ := listHead A.segregatedFreeLists i

/-- The ten free lists of memory `m` have the members `F`. -/
def FreeLists (A : Arena) (m : Mem) (F : Fin 10 → List ℕ) : Prop :=
  Rings (nodeNext m) (nodePrev m) (headOf A) F

/-- The nodes are 8-byte objects that do not overlap, inside the address space. -/
structure Spaced (A : Arena) (F : Fin 10 → List ℕ) : Prop where
  apart : ∀ a b, Node (headOf A) F a → Node (headOf A) F b → a ≠ b → a + 8 ≤ b ∨ b + 8 ≤ a
  top : ∀ a, Node (headOf A) F a → a + 8 ≤ 2 ^ 32

theorem headOf_inj (A : Arena) (i j : Fin 10) (h : headOf A i = headOf A j) : i = j := by
  unfold headOf listHead at h
  omega

/-! ## The edits -/

section Edits

variable {A : Arena} {m : Mem} {F : Fin 10 → List ℕ} {x : ℕ}

/-- Stores away from the nodes keep the lists. -/
theorem FreeLists.congr {m' : Mem} (h : FreeLists A m F)
    (hag : ∀ a, Node (headOf A) F a → ∀ y, a ≤ y → y < a + 8 → m' y = m y) : FreeLists A m' F :=
  Rings.congr h fun a ha =>
    ⟨load32_congr fun y h1 h2 => hag a ha y (by omega) (by omega),
      load32_congr fun y h1 h2 => hag a ha y (by omega) (by omega)⟩

theorem FreeLists.store32 (h : FreeLists A m F) {a v : ℕ}
    (ha : ∀ n, Node (headOf A) F n → a + 4 ≤ n ∨ n + 8 ≤ a) : FreeLists A (store32 m a v) F :=
  h.congr fun n hn y h1 h2 => store32_out (by have := ha n hn; omega)

theorem node_of_erase {a : ℕ} (h : Node (headOf A) (fun j => (F j).erase x) a) :
    Node (headOf A) F a := by
  rcases h with h | ⟨j, h⟩
  · exact Or.inl h
  · exact Or.inr ⟨j, List.mem_of_mem_erase h⟩

/-- `list_erase` unlinks a member; it writes only link words of nodes. -/
theorem listErase_spec (hF : FreeLists A m F) (hS : Spaced A F) {i : Fin 10} (hx : x ∈ F i) :
    FreeLists A (listErase m x) (fun j => (F j).erase x) ∧
      ∀ y, (∀ n, Node (headOf A) F n → y < n ∨ n + 8 ≤ y) → listErase m x y = m y := by
  have hxN : Node (headOf A) F x := Or.inr ⟨i, hx⟩
  obtain ⟨hnN, hpN, -, -⟩ := Rings.node_links hF hxN
  obtain ⟨hnx, hpx⟩ := Rings.links_ne_self hF hx
  have hsn := hS.apart _ _ hnN hxN hnx
  have hsp := hS.apart _ _ hpN hxN hpx
  have hn32 : nodeNext m x < 2 ^ 32 := load32_lt _ _
  have hp32 : nodePrev m x < 2 ^ 32 := load32_lt _ _
  set p := nodePrev m x with hp
  set n := nodeNext m x with hn
  -- the second statement still reads the node's own links
  have e1 : nodeNext (store32 m (p + 4) n) x = n := by
    rw [nodeNext, load32_store32_of_disjoint (by omega)]; rfl
  have e2 : nodePrev (store32 m (p + 4) n) x = p := by
    rw [nodePrev, load32_store32_of_disjoint (by omega)]; rfl
  have hm : listErase m x = store32 (store32 m (p + 4) n) n p := by
    simp only [listErase, ← hp, ← hn, e1, e2]
  refine ⟨?_, ?_⟩
  · have hR := Rings.erase hF hx
    refine Rings.congr hR fun a ha => ?_
    have haN := node_of_erase ha
    rw [hm, ← hp, ← hn]
    refine ⟨?_, ?_⟩
    · by_cases hap : a = p
      · subst hap
        rw [Function.update_self, nodeNext, load32_store32_of_disjoint, load32_store32_same hn32]
        by_cases hnp : n = p
        · omega
        · have := hS.apart _ _ hnN hpN hnp; omega
      · have h1 := hS.apart _ _ haN hpN hap
        rw [Function.update_of_ne hap, nodeNext, load32_store32_of_disjoint,
          load32_store32_of_disjoint (by omega)]
        · rfl
        · by_cases han : a = n
          · omega
          · have := hS.apart _ _ haN hnN han; omega
    · by_cases han : a = n
      · subst han
        rw [Function.update_self, nodePrev, load32_store32_same hp32]
      · have h1 := hS.apart _ _ haN hnN han
        rw [Function.update_of_ne han, nodePrev, load32_store32_of_disjoint (by omega),
          load32_store32_of_disjoint]
        · rfl
        · by_cases hap : a = p
          · omega
          · have := hS.apart _ _ haN hpN hap; omega
  · intro y hy
    have h1 := hy n hnN
    have h2 := hy p hpN
    rw [hm, store32_out (by omega), store32_out (by omega)]

theorem node_of_push {a : ℕ} {i : Fin 10}
    (h : Node (headOf A) (Function.update F i (x :: F i)) a) : a = x ∨ Node (headOf A) F a := by
  rcases h with h | ⟨j, h⟩
  · exact Or.inr (Or.inl h)
  · rcases Rings.mem_push_iff.mp h with h | ⟨h, -⟩
    · exact Or.inr (Or.inr ⟨j, h⟩)
    · exact Or.inl h

/-- `list_push_front` links a new node; it writes only link words of nodes and of the new node. -/
theorem listPushFront_spec (hF : FreeLists A m F) (hS : Spaced A F) (i : Fin 10)
    (hx : ∀ n, Node (headOf A) F n → x + 8 ≤ n ∨ n + 8 ≤ x) (hx32 : x + 8 ≤ 2 ^ 32) :
    FreeLists A (listPushFront m (headOf A i) x) (Function.update F i (x :: F i)) ∧
      ∀ y, (y < x ∨ x + 8 ≤ y) → (∀ n, Node (headOf A) F n → y < n ∨ n + 8 ≤ y) →
        listPushFront m (headOf A i) x y = m y := by
  have hhN : Node (headOf A) F (headOf A i) := Or.inl ⟨i, rfl⟩
  obtain ⟨hnN, -, -, -⟩ := Rings.node_links hF hhN
  have hxN : ¬ Node (headOf A) F x := fun h => by have := hx x h; omega
  have hn32 : nodeNext m (headOf A i) < 2 ^ 32 := load32_lt _ _
  have hh32 := hS.top _ hhN
  set h := headOf A i with hh
  set n := nodeNext m h with hn
  have hxh := hx h hhN
  have hxn := hx n hnN
  -- storing the new node's links does not disturb the head's
  have e1 : nodeNext (store32 m x h) h = n := by
    rw [nodeNext, load32_store32_of_disjoint (by omega)]; rfl
  have e2 : nodeNext (store32 (store32 m x h) (x + 4) n) h = n := by
    rw [nodeNext, load32_store32_of_disjoint (by omega), load32_store32_of_disjoint (by omega)]; rfl
  have hm : listPushFront m h x =
      store32 (store32 (store32 (store32 m x h) (x + 4) n) n x) (h + 4) x := by
    simp only [listPushFront, e1, e2]
  refine ⟨?_, ?_⟩
  · refine Rings.congr (Rings.push hF (i := i) hxN) fun a ha => ?_
    rw [hm, ← hh, ← hn]
    rcases node_of_push ha with rfl | haN
    · refine ⟨?_, ?_⟩
      · rw [Function.update_of_ne (by omega), Function.update_self, nodeNext,
          load32_store32_of_disjoint (by omega), load32_store32_of_disjoint (by omega),
          load32_store32_same hn32]
      · rw [Function.update_of_ne (by omega), Function.update_self, nodePrev,
          load32_store32_of_disjoint (by omega), load32_store32_of_disjoint (by omega),
          load32_store32_of_disjoint (by omega), load32_store32_same (by omega)]
    · have hxa := hx a haN
      refine ⟨?_, ?_⟩
      · by_cases hah : a = h
        · subst hah
          rw [Function.update_self, nodeNext, load32_store32_same (by omega)]
        · have h1 := hS.apart _ _ haN hhN hah
          rw [Function.update_of_ne hah, Function.update_of_ne (by omega), nodeNext,
            load32_store32_of_disjoint (by omega), load32_store32_of_disjoint,
            load32_store32_of_disjoint (by omega), load32_store32_of_disjoint (by omega)]
          · rfl
          · by_cases han : a = n
            · omega
            · have := hS.apart _ _ haN hnN han; omega
      · have hah : a + 4 ≤ h + 4 ∨ h + 4 + 4 ≤ a := by
          by_cases hah : a = h
          · omega
          · have := hS.apart _ _ haN hhN hah; omega
        by_cases han : a = n
        · subst han
          rw [Function.update_self, nodePrev, load32_store32_of_disjoint (by omega),
            load32_store32_same (by omega)]
        · have h1 := hS.apart _ _ haN hnN han
          rw [Function.update_of_ne han, Function.update_of_ne (by omega), nodePrev,
            load32_store32_of_disjoint (by omega), load32_store32_of_disjoint (by omega),
            load32_store32_of_disjoint (by omega), load32_store32_of_disjoint (by omega)]
          rfl
  · intro y hyx hy
    have h1 := hy n hnN
    have h2 := hy h hhN
    rw [hm, store32_out (by omega), store32_out (by omega), store32_out (by omega),
      store32_out (by omega)]

end Edits

/-! ## Size classes -/

section Classes

/-- The shift loop adds the bit length of `size`: the `k` with `2 ^ (k - 1) ≤ size < 2 ^ k`. -/
theorem countShifts_spec : ∀ (rounds size index : ℕ), size < 2 ^ rounds →
    ∃ k, countShifts rounds size index = index + k ∧ size < 2 ^ k ∧ (0 < k → 2 ^ (k - 1) ≤ size)
  | 0, size, index, h => ⟨0, rfl, h, by omega⟩
  | rounds + 1, size, index, h => by
    rw [countShifts]
    by_cases hs : size = 0
    · exact ⟨0, by simp [hs], by simp [hs], by omega⟩
    · have h2 : size >>> 1 < 2 ^ rounds := by
        rw [Nat.shiftRight_eq_div_pow]; rw [pow_succ] at h; omega
      obtain ⟨k, h3, h4, h5⟩ := countShifts_spec rounds (size >>> 1) (index + 1) h2
      rw [Nat.shiftRight_eq_div_pow] at h4 h5
      refine ⟨k + 1, by rw [if_pos hs, h3]; omega, by rw [pow_succ]; omega, fun _ => ?_⟩
      by_cases hk : k = 0
      · subst hk; simp; omega
      · have h6 := h5 (by omega)
        have h7 : 2 ^ (k + 1 - 1) = 2 ^ (k - 1) * 2 := by rw [← pow_succ]; congr 1; omega
        omega

theorem sizeClass_lt (size : ℕ) : sizeClass size < 10 := by
  unfold sizeClass numLists; omega

/-- The list a size is filed under. -/
def classOf (size : ℕ) : Fin 10 := ⟨sizeClass size, sizeClass_lt size⟩

/-- The bit length behind the class of a size. -/
theorem sizeClass_spec {size : ℕ} (h32 : size < 2 ^ 32) :
    ∃ k, sizeClass size = min k 9 ∧ (size - 1) / 16 < 2 ^ k ∧
      (0 < k → 2 ^ (k - 1) ≤ (size - 1) / 16) := by
  obtain ⟨k, h1, h2, h3⟩ := countShifts_spec 32 ((size - 1) / minBlockSize) 0
    (lt_of_le_of_lt (Nat.div_le_self _ _) (by omega))
  exact ⟨k, by unfold sizeClass numLists; rw [h1, zero_add], h2, h3⟩

theorem sizeClass_mono {s t : ℕ} (hst : s ≤ t) (ht : t < 2 ^ 32) : sizeClass s ≤ sizeClass t := by
  obtain ⟨k, h1, -, h3⟩ := sizeClass_spec (lt_of_le_of_lt hst ht)
  obtain ⟨l, h4, h5, -⟩ := sizeClass_spec ht
  have hkl : k ≤ l := by
    by_contra hc
    have h6 := h3 (by omega)
    have h7 : 2 ^ l ≤ 2 ^ (k - 1) := Nat.pow_le_pow_right (by omega) (by omega)
    have h8 : (s - 1) / 16 ≤ (t - 1) / 16 := Nat.div_le_div_right (by omega)
    omega
  rw [h1, h4]
  omega

/-- Every size lies between the bounds of its class. -/
theorem sizeClass_bounds {size : ℕ} (h16 : 16 ≤ size) (h32 : size < 2 ^ 32) :
    segregatedFreeListMinSize (sizeClass size) ≤ size ∧
      size ≤ segregatedFreeListMaxSize (sizeClass size) := by
  obtain ⟨k, h1, h2, h3⟩ := sizeClass_spec h32
  unfold segregatedFreeListMinSize segregatedFreeListMaxSize minBlockSize numLists sizeMax
  rw [h1]
  refine ⟨?_, ?_⟩
  · by_cases hk : k = 0
    · simp [hk, h16]
    · -- the lower bound of class `min k 9` is at most that of `k`
      have h4 := h3 (by omega)
      have h5 : 2 ^ (min k 9 - 1) ≤ 2 ^ (k - 1) := Nat.pow_le_pow_right (by omega) (by omega)
      rw [if_pos (by omega), Nat.shiftLeft_eq]
      omega
  · by_cases hk : k < 9
    · rw [if_pos (by omega), Nat.shiftLeft_eq, Nat.min_eq_left (by omega)]
      omega
    · rw [if_neg (by omega)]
      omega

theorem lowerBound_eq {size : ℕ} (h : 16 ≤ size) :
    segregatedFreeListLowerBound size = some (sizeClass size) := if_pos h

/-- The classes do not overlap: each one ends before the later ones begin. -/
theorem maxSize_lt_minSize {i j : ℕ} (hij : i < j) (hj : j < numLists) :
    segregatedFreeListMaxSize i < segregatedFreeListMinSize j := by
  have hpow : 2 ^ i ≤ 2 ^ (j - 1) := Nat.pow_le_pow_right (by omega) (by omega)
  rw [segregatedFreeListMaxSize, segregatedFreeListMinSize, if_pos (by omega), if_pos (by omega),
    Nat.shiftLeft_eq, Nat.shiftLeft_eq]
  exact Nat.lt_succ_of_le (Nat.mul_le_mul_left minBlockSize hpow)

/-- A size lies between the bounds of one class only. -/
theorem class_unique {size i j : ℕ} (hi : i < numLists) (hj : j < numLists)
    (hmin : segregatedFreeListMinSize i ≤ size) (hmax : size ≤ segregatedFreeListMaxSize i)
    (hmin' : segregatedFreeListMinSize j ≤ size) (hmax' : size ≤ segregatedFreeListMaxSize j) : i = j := by
  rcases lt_trichotomy i j with hlt | heq | hgt
  · have := maxSize_lt_minSize hlt hj
    omega
  · exact heq
  · have := maxSize_lt_minSize hgt hi
    omega

/-- **The classes partition the sizes**: the lower bound of a size is the one class it lies in, and it grows with
the size. -/
theorem sizeClasses_partition {size : ℕ} (h16 : minBlockSize ≤ size) (h32 : size < 2 ^ 32) :
    ∃ i, segregatedFreeListLowerBound size = some i ∧
      (∀ j, j < numLists ∧ segregatedFreeListMinSize j ≤ size ∧ size ≤ segregatedFreeListMaxSize j ↔ j = i) ∧
      ∀ size', size ≤ size' → size' < 2 ^ 32 →
        ∃ i', segregatedFreeListLowerBound size' = some i' ∧ i ≤ i' := by
  obtain ⟨hmin, hmax⟩ := sizeClass_bounds h16 h32
  refine ⟨sizeClass size, lowerBound_eq h16, fun j => ⟨?_, ?_⟩, fun size' hle h32' => ?_⟩
  · rintro ⟨hj, hmin', hmax'⟩
    exact class_unique hj (sizeClass_lt size) hmin' hmax' hmin hmax
  · rintro rfl
    exact ⟨sizeClass_lt size, hmin, hmax⟩
  · exact ⟨sizeClass size', lowerBound_eq (h16.trans hle), sizeClass_mono hle h32'⟩

/-- At the largest size of class 8. -/
theorem sizeClasses_partition_sample :
    ∃ i, segregatedFreeListLowerBound 4096 = some i ∧
      (∀ j, j < numLists ∧ segregatedFreeListMinSize j ≤ 4096 ∧ 4096 ≤ segregatedFreeListMaxSize j ↔ j = i) ∧
      ∀ size', 4096 ≤ size' → size' < 2 ^ 32 →
        ∃ i', segregatedFreeListLowerBound size' = some i' ∧ i ≤ i' :=
  sizeClasses_partition (by decide) (by decide)

end Classes

/-! ## The search -/

section Search

variable {m : Mem} {list : ℕ}

theorem listWalkFrom_eq {fuel fp : ℕ} {xs : List ℕ} (hp : Path (nodeNext m) list fp xs)
    (hf : xs.length < fuel) : listWalkFrom m list fuel fp = some xs := by
  induction xs generalizing fuel fp with
  | nil =>
    obtain ⟨f, rfl⟩ : ∃ f, fuel = f + 1 := ⟨fuel - 1, by simp at hf; omega⟩
    rw [listWalkFrom, if_pos (show fp = list from hp)]
  | cons x xs ih =>
    obtain ⟨rfl, hne, hp⟩ := hp
    obtain ⟨f, rfl⟩ : ∃ f, fuel = f + 1 := ⟨fuel - 1, by omega⟩
    rw [listWalkFrom, if_neg hne, ih hp (by simpa using hf)]
    rfl

/-- The inner loop keeps the best fit seen so far. -/
theorem bestFitInList_eq {fuel fp : ℕ} (allocSize bestBp bestSize : ℕ) {xs : List ℕ}
    (hp : Path (nodeNext m) list fp xs) (hf : xs.length < fuel) :
    bestFitInList m list allocSize fuel fp bestBp bestSize =
      some (bestScan (fun bp => decide (allocSize ≤ getSize m (headerPtr bp))) (fun bp => getSize m (headerPtr bp))
        xs bestBp bestSize) := by
  induction xs generalizing fuel fp bestBp bestSize with
  | nil =>
    obtain ⟨f, rfl⟩ : ∃ f, fuel = f + 1 := ⟨fuel - 1, by simp at hf; omega⟩
    rw [bestFitInList, if_pos (show fp = list from hp)]
    rfl
  | cons x xs ih =>
    obtain ⟨rfl, hne, hp⟩ := hp
    obtain ⟨f, rfl⟩ : ∃ f, fuel = f + 1 := ⟨fuel - 1, by omega⟩
    rw [List.length_cons, Nat.add_lt_add_iff_right] at hf
    simp only [bestFitInList, if_neg hne, bestScan, decide_eq_true_eq]
    split_ifs
    · exact ih _ _ hp hf
    · exact ih _ _ hp hf

theorem bestFitInList_spec {fuel fp : ℕ} (allocSize bestBp bestSize : ℕ) {xs : List ℕ}
    (hp : Path (nodeNext m) list fp xs) (hf : xs.length < fuel) :
    ∃ r, bestFitInList m list allocSize fuel fp bestBp bestSize = some r ∧
      ((r = bestBp ∧ ∀ y ∈ xs, allocSize ≤ getSize m (headerPtr y) →
          bestSize ≤ getSize m (headerPtr y)) ∨
        (r ∈ xs ∧ allocSize ≤ getSize m (headerPtr r) ∧ getSize m (headerPtr r) < bestSize ∧
          ∀ y ∈ xs, allocSize ≤ getSize m (headerPtr y) →
            getSize m (headerPtr r) ≤ getSize m (headerPtr y))) := by
  refine ⟨_, bestFitInList_eq allocSize bestBp bestSize hp hf, ?_⟩
  rcases bestScan_cases (fun bp => decide (allocSize ≤ getSize m (headerPtr bp)))
    (fun bp => getSize m (headerPtr bp)) xs bestBp bestSize with ⟨h1, h2⟩ | h
  · exact Or.inl ⟨h1, fun y hy hle => h2 y hy (decide_eq_true hle)⟩
  · exact Or.inr ⟨h.mem, of_decide_eq_true h.fit, h.lt, fun y hy hle => h.le y hy (decide_eq_true hle)⟩

variable {A : Arena} {F : Fin 10 → List ℕ}

theorem FreeLists.path (hF : FreeLists A m F) (i : Fin 10) :
    Path (nodeNext m) (headOf A i) (listBegin m (headOf A i)) (F i) :=
  (Rings.ring hF i).path (Rings.head_notMem hF i i)

/-- The outer loop over the lists `i, i + 1, …, i + n - 1`: the first list with a fit decides. -/
theorem bestFitFrom_spec (allocSize : ℕ) (hF : FreeLists A m F) (hlen : ∀ i, (F i).length < walkFuel)
    (hpos : ∀ i, ∀ a ∈ F i, a ≠ null) : ∀ (n i : ℕ), i + n ≤ 10 →
    ∃ r, bestFitFrom A.segregatedFreeLists m allocSize n i = some r ∧
      ((r = null ∧ ∀ j : Fin 10, i ≤ j → (j : ℕ) < i + n → ∀ y ∈ F j,
          ¬ allocSize ≤ getSize m (headerPtr y)) ∨
        (r ≠ null ∧ ∃ j : Fin 10, i ≤ j ∧ r ∈ F j ∧ allocSize ≤ getSize m (headerPtr r) ∧
          (∀ y ∈ F j, allocSize ≤ getSize m (headerPtr y) →
            getSize m (headerPtr r) ≤ getSize m (headerPtr y)) ∧
          ∀ l : Fin 10, i ≤ l → l < j → ∀ y ∈ F l, ¬ allocSize ≤ getSize m (headerPtr y)))
  | 0, i, _ => ⟨null, rfl, Or.inl ⟨rfl, fun j h1 h2 => by omega⟩⟩
  | n + 1, i, hi => by
    obtain ⟨r, h1, h2⟩ := bestFitInList_spec allocSize null sizeMax (hF.path ⟨i, by omega⟩)
      (hlen ⟨i, by omega⟩)
    have h1' : bestFitInList m (listHead A.segregatedFreeLists i) allocSize walkFuel
        (listBegin m (listHead A.segregatedFreeLists i)) null sizeMax = some r := h1
    have hstep : bestFitFrom A.segregatedFreeLists m allocSize (n + 1) i =
        if r ≠ null then some r else bestFitFrom A.segregatedFreeLists m allocSize n (i + 1) := by
      simp only [bestFitFrom, h1', Option.bind_eq_bind, Option.bind_some]
      split_ifs <;> rfl
    rw [hstep]
    rcases h2 with ⟨rfl, h2⟩ | ⟨h2, h3, h4, h5⟩
    · -- no fit in list `i`: sizes are below `SIZE_MAX`
      have hnone : ∀ y ∈ F ⟨i, by omega⟩, ¬ allocSize ≤ getSize m (headerPtr y) := by
        intro y hy hay
        have h6 := h2 y hy hay
        have h7 : getSize m (headerPtr y) ≤ 0xFFFFFFF8 := Nat.and_le_right
        unfold sizeMax at h6
        omega
      obtain ⟨r, h6, h7⟩ := bestFitFrom_spec allocSize hF hlen hpos n (i + 1) (by omega)
      refine ⟨r, by simpa using h6, ?_⟩
      have hi' : ∀ l : Fin 10, i ≤ l → ¬ i + 1 ≤ (l : ℕ) → l = ⟨i, by omega⟩ := by
        intro l hl1 hl2
        exact Fin.ext (by simp; omega)
      rcases h7 with ⟨rfl, h7⟩ | ⟨h7, j, h8, h9, h10, h11, h12⟩
      · refine Or.inl ⟨rfl, fun j hj1 hj2 y hy => ?_⟩
        by_cases hj : i + 1 ≤ (j : ℕ)
        · exact h7 j hj (by omega) y hy
        · rw [hi' j hj1 hj] at hy; exact hnone y hy
      · refine Or.inr ⟨h7, j, by omega, h9, h10, h11, fun l hl1 hl2 y hy => ?_⟩
        by_cases hl : i + 1 ≤ (l : ℕ)
        · exact h12 l hl hl2 y hy
        · rw [hi' l hl1 hl] at hy; exact hnone y hy
    · have hr := hpos _ r h2
      refine ⟨r, if_pos hr, Or.inr ⟨hr, ⟨i, by omega⟩, le_rfl, h2, h3, h5, ?_⟩⟩
      intro l hl1 hl2
      have : (l : ℕ) < i := hl2
      omega

end Search

end Csapp.Malloc
