import Mathlib.Data.Finset.Sort
import Mathlib.Data.List.GetD

/-!
# Store.IntSet — sets of small integers as bit vectors

An `IntSet` keeps the number `x` in the bit `x % 64` of the word `x / 64`.  `run_refines` is about programs over any
number of sets: what `Has`, `Len` and `String` say is what they say of finite sets of numbers.
-/

namespace Csapp.Store

abbrev Word := BitVec 64

structure IntSet where
  words : List Word

namespace IntSet

/-! ## bitvector.go -/

def bit (x : ℕ) : Word := 1#64 <<< (x % 64)

def Has (s : IntSet) (x : ℕ) : Bool :=
  match s.words[x / 64]? with
  | some word => word &&& bit x != 0
  | none => false

/-- `for word >= len(s.words)`. -/
def grow (word : ℕ) (words : List Word) : List Word :=
  if words.length ≤ word then grow word (words ++ [0]) else words
termination_by word + 1 - words.length
decreasing_by
  rw [List.length_append, List.length_singleton]
  omega

def Add (s : IntSet) (x : ℕ) : IntSet := ⟨(grow (x / 64) s.words).modify (x / 64) (· ||| bit x)⟩

/-- The loop of `UnionWith`, from index `i` on. -/
def unionLoop : ℕ → List Word → List Word → List Word
  | _, [], words => words
  | i, tword :: twords, words =>
    unionLoop (i + 1) twords (if i < words.length then words.modify i (· ||| tword) else words ++ [tword])

def UnionWith (s t : IntSet) : IntSet := ⟨unionLoop 0 t.words s.words⟩

/-- `word & (1 << j) != 0`. -/
def hasBit (word : Word) (j : ℕ) : Bool := word &&& 1#64 <<< j != 0

/-- `%d`. -/
def digits (x : ℕ) : List Char := Nat.toDigits 10 x

def writeInt (buf : List Char) (x : ℕ) : List Char := (if 1 < buf.length then buf ++ [' '] else buf) ++ digits x

def String (s : IntSet) : List Char :=
  (s.words.zipIdx.foldl (fun buf p =>
    if p.1 = 0 then buf
    else (List.range 64).foldl (fun buf j => if hasBit p.1 j then writeInt buf (64 * p.2 + j) else buf) buf) ['{']) ++
    ['}']

def Len (s : IntSet) : ℕ :=
  s.words.foldl (fun count word =>
    (List.range 64).foldl (fun count j => if hasBit word j then count + 1 else count) count) 0

def Remove (s : IntSet) (x : ℕ) : IntSet :=
  if x / 64 < s.words.length then ⟨s.words.modify (x / 64) (· &&& ~~~bit x)⟩ else s

def Clear (_ : IntSet) : IntSet := ⟨[]⟩

def Copy (s : IntSet) : IntSet := ⟨s.words⟩

def AddAll (s : IntSet) (numbers : List ℕ) : IntSet := numbers.foldl Add s

/-! ## The numbers of a set -/

/-- The bit of `x`; what lies behind the words is zero. -/
def Mem (words : List Word) (x : ℕ) : Prop := (words.getD (x / 64) 0).getLsbD (x % 64) = true

theorem mem_nil (x : ℕ) : ¬Mem [] x := fun h => Bool.false_ne_true (BitVec.getLsbD_zero.symm.trans h)

theorem hasBit_eq (word : Word) {j : ℕ} (hj : j < 64) : hasBit word j = word.getLsbD j := by
  unfold hasBit
  rw [← BitVec.twoPow_eq, BitVec.and_twoPow]
  cases word.getLsbD j with
  | true =>
    refine bne_iff_ne.mpr fun h => ?_
    have hbit := congrArg (fun w : Word => w.getLsbD j) h
    simp only [if_true, BitVec.getLsbD_twoPow, hj, decide_true, Bool.and_true] at hbit
    exact absurd (hbit.trans BitVec.getLsbD_zero) Bool.true_eq_false.mp
  | false => rfl

theorem getLsbD_bit (x j : ℕ) : (bit x).getLsbD j = decide (x % 64 = j) := by
  unfold bit
  rw [← BitVec.twoPow_eq, BitVec.getLsbD_twoPow, decide_eq_true (Nat.mod_lt x (by decide)), Bool.true_and]

theorem Has_iff (s : IntSet) (x : ℕ) : s.Has x = true ↔ Mem s.words x := by
  unfold Has Mem
  rw [List.getD_eq_getElem?_getD]
  cases s.words[x / 64]? with
  | none => exact ⟨nofun, fun h => absurd (BitVec.getLsbD_zero.symm.trans h) Bool.false_ne_true⟩
  | some word => exact Bool.eq_iff_iff.mp (hasBit_eq word (Nat.mod_lt x (by decide)))

theorem eq_iff_div_mod {x y : ℕ} : x = y ↔ x / 64 = y / 64 ∧ x % 64 = y % 64 := by omega

theorem getD_modify (words : List Word) (i j : ℕ) (f : Word → Word) :
    (words.modify i f).getD j 0 = if i = j ∧ j < words.length then f (words.getD j 0) else words.getD j 0 := by
  rw [List.getD_eq_getElem?_getD, List.getD_eq_getElem?_getD, List.getElem?_modify]
  by_cases hj : j < words.length
  · rw [List.getElem?_eq_getElem hj]
    by_cases hi : i = j
    · rw [if_pos ⟨hi, hj⟩]
      simp only [Option.map_eq_map, Option.map_some, if_pos hi, Option.getD_some]
    · rw [if_neg fun h => hi h.1]
      simp only [Option.map_eq_map, Option.map_some, if_neg hi]
  · rw [List.getElem?_eq_none (Nat.le_of_not_lt hj), if_neg fun h => hj h.2]
    rfl

theorem getD_append_zero (words : List Word) (j : ℕ) : (words ++ [0]).getD j 0 = words.getD j 0 := by
  rcases lt_trichotomy j words.length with hj | rfl | hj
  · rw [List.getD_append _ _ _ _ hj]
  · rw [List.getD_append_right _ _ _ _ (Nat.le_refl _), Nat.sub_self, List.getD_eq_default _ _ (Nat.le_refl _)]
    rfl
  · rw [List.getD_eq_default _ _ (by rw [List.length_append, List.length_singleton]; omega),
      List.getD_eq_default _ _ (Nat.le_of_lt hj)]

theorem grow_spec (word : ℕ) (words : List Word) :
    word < (grow word words).length ∧ ∀ j, (grow word words).getD j 0 = words.getD j 0 := by
  fun_induction grow word words with
  | case1 words hle ih =>
    exact ⟨ih.1, fun j => (ih.2 j).trans (getD_append_zero words j)⟩
  | case2 words hlt =>
    exact ⟨Nat.lt_of_not_le hlt, fun _ => rfl⟩

theorem mem_Add (s : IntSet) (x y : ℕ) : Mem (s.Add x).words y ↔ y = x ∨ Mem s.words y := by
  obtain ⟨hlen, hsame⟩ := grow_spec (x / 64) s.words
  unfold Mem Add
  rw [getD_modify, hsame, eq_comm (a := y) (b := x), eq_iff_div_mod (x := x)]
  by_cases hw : x / 64 = y / 64
  · rw [if_pos ⟨hw, hw ▸ hlen⟩, BitVec.getLsbD_or, getLsbD_bit x (y % 64), Bool.or_eq_true,
      decide_eq_true_eq, or_comm, and_iff_right hw]
  · rw [if_neg fun h => hw h.1, or_iff_right fun h => hw h.1]

theorem mem_Remove (s : IntSet) (x y : ℕ) : Mem (s.Remove x).words y ↔ y ≠ x ∧ Mem s.words y := by
  have hbit : ∀ word : Word, (word &&& ~~~bit x).getLsbD (y % 64) = true ↔
      ¬x % 64 = y % 64 ∧ word.getLsbD (y % 64) = true := fun word => by
    rw [BitVec.getLsbD_and, BitVec.getLsbD_not, getLsbD_bit x (y % 64),
      decide_eq_true (Nat.mod_lt y (by decide)), Bool.true_and, Bool.and_eq_true, Bool.not_eq_true',
      decide_eq_false_iff_not, and_comm]
  unfold Mem Remove
  rw [ne_comm, ne_eq, eq_iff_div_mod (x := x)]
  by_cases hlen : x / 64 < s.words.length
  · rw [if_pos hlen, getD_modify]
    by_cases hw : x / 64 = y / 64
    · rw [if_pos ⟨hw, hw ▸ hlen⟩, hbit, and_iff_right hw]
    · rw [if_neg fun h => hw h.1]
      exact ⟨fun h => ⟨fun h' => hw h'.1, h⟩, And.right⟩
  · rw [if_neg hlen]
    refine ⟨fun h => ⟨fun h' => ?_, h⟩, And.right⟩
    rw [List.getD_eq_default _ _ (by omega)] at h
    exact Bool.false_ne_true (BitVec.getLsbD_zero.symm.trans h)

/-- One round of `UnionWith`. -/
theorem getD_unionStep (words : List Word) (tword : Word) {i : ℕ} (hi : i ≤ words.length) (k : ℕ) :
    (if i < words.length then words.modify i (· ||| tword) else words ++ [tword]).getD k 0 =
      words.getD k 0 ||| if i = k then tword else 0 := by
  by_cases hlt : i < words.length
  · rw [if_pos hlt, getD_modify]
    by_cases hk : i = k
    · rw [if_pos ⟨hk, hk ▸ hlt⟩, if_pos hk]
    · rw [if_neg fun h => hk h.1, if_neg hk]
      exact BitVec.or_zero.symm
  · obtain rfl : i = words.length := by omega
    rw [if_neg hlt]
    rcases lt_trichotomy k words.length with hk | rfl | hk
    · rw [List.getD_append _ _ _ _ hk, if_neg (by omega)]
      exact BitVec.or_zero.symm
    · rw [List.getD_append_right _ _ _ _ (Nat.le_refl _), Nat.sub_self, List.getD_eq_default _ _ (Nat.le_refl _),
        if_pos rfl]
      exact BitVec.zero_or.symm
    · rw [List.getD_eq_default _ _ (by rw [List.length_append, List.length_singleton]; omega),
        List.getD_eq_default _ _ (Nat.le_of_lt hk), if_neg (by omega)]
      exact BitVec.or_zero.symm

theorem length_unionStep (words : List Word) (tword : Word) {i : ℕ} (hi : i ≤ words.length) :
    i + 1 ≤ (if i < words.length then words.modify i (· ||| tword) else words ++ [tword]).length := by
  by_cases hlt : i < words.length
  · rw [if_pos hlt, List.length_modify]
    exact hlt
  · rw [if_neg hlt, List.length_append, List.length_singleton]
    omega

theorem getD_unionLoop : ∀ (twords words : List Word) {i : ℕ}, i ≤ words.length → ∀ k,
    (unionLoop i twords words).getD k 0 = words.getD k 0 ||| if i ≤ k then twords.getD (k - i) 0 else 0
  | [], words, i, _, k => by
    unfold unionLoop
    rw [List.getD_nil, ite_self]
    exact BitVec.or_zero.symm
  | tword :: twords, words, i, hi, k => by
    unfold unionLoop
    rw [getD_unionLoop twords _ (length_unionStep words tword hi) k, getD_unionStep words tword hi k, BitVec.or_assoc]
    congr 1
    rcases lt_trichotomy i k with hk | rfl | hk
    · rw [if_neg hk.ne, if_pos (Nat.succ_le_of_lt hk), if_pos hk.le, show k - i = k - (i + 1) + 1 by omega,
        List.getD_cons_succ]
      exact BitVec.zero_or
    · rw [if_pos rfl, if_neg (by omega), if_pos (le_refl i), Nat.sub_self, List.getD_cons_zero]
      exact BitVec.or_zero
    · rw [if_neg hk.ne', if_neg (by omega), if_neg (by omega)]
      exact BitVec.or_zero

theorem mem_UnionWith (s t : IntSet) (y : ℕ) :
    Mem (s.UnionWith t).words y ↔ Mem s.words y ∨ Mem t.words y := by
  unfold Mem UnionWith
  rw [getD_unionLoop _ _ (Nat.zero_le _), if_pos (Nat.zero_le _), Nat.sub_zero, BitVec.getLsbD_or, Bool.or_eq_true]

theorem mem_AddAll (numbers : List ℕ) (s : IntSet) (y : ℕ) :
    Mem (s.AddAll numbers).words y ↔ y ∈ numbers ∨ Mem s.words y := by
  unfold AddAll
  induction numbers generalizing s with
  | nil => exact ⟨Or.inr, fun h => h.resolve_left List.not_mem_nil⟩
  | cons x numbers ih =>
    rw [List.foldl_cons, ih, mem_Add, List.mem_cons, or_left_comm, or_assoc]

/-! ## The numbers in order -/

/-- The numbers in the word with index `i`. -/
def wordElems (p : Word × ℕ) : List ℕ := ((List.range 64).filter fun j => hasBit p.1 j).map (64 * p.2 + ·)

def elems (s : IntSet) : List ℕ := s.words.zipIdx.flatMap wordElems

/-- Two loops over the bits are one over the numbers. -/
theorem foldl_words {β : Type} (words : List Word) (f : β → ℕ → β) (b : β) :
    words.zipIdx.foldl (fun b p =>
        (List.range 64).foldl (fun b j => if hasBit p.1 j then f b (64 * p.2 + j) else b) b) b =
      (words.zipIdx.flatMap wordElems).foldl f b := by
  rw [List.foldl_flatMap]
  congr 1
  funext b p
  unfold wordElems
  rw [List.foldl_map, List.foldl_filter]

theorem foldl_count (xs : List ℕ) (n : ℕ) : xs.foldl (fun count _ => count + 1) n = n + xs.length := by
  induction xs generalizing n with
  | nil => rfl
  | cons x xs ih =>
    rw [List.foldl_cons, ih, List.length_cons]
    omega

theorem Len_eq (s : IntSet) : s.Len = s.elems.length := by
  have hloops := foldl_words s.words (fun count _ => count + 1) 0
  rw [foldl_count, Nat.zero_add] at hloops
  unfold Len elems
  rw [← hloops]
  nth_rewrite 1 [← List.zipIdx_map_fst 0 s.words]
  rw [List.foldl_map]

theorem mem_wordElems (p : Word × ℕ) (x : ℕ) : x ∈ wordElems p ↔ p.2 = x / 64 ∧ p.1.getLsbD (x % 64) = true := by
  unfold wordElems
  rw [List.mem_map]
  constructor
  · rintro ⟨j, hj, rfl⟩
    obtain ⟨hlt, hbit⟩ := List.mem_filter.mp hj
    have hlt := List.mem_range.mp hlt
    rw [hasBit_eq _ hlt] at hbit
    rw [show (64 * p.2 + j) % 64 = j by omega]
    exact ⟨by omega, hbit⟩
  · rintro ⟨hi, hbit⟩
    have hlt : x % 64 < 64 := Nat.mod_lt x (by decide)
    rw [← hasBit_eq _ hlt] at hbit
    exact ⟨x % 64, List.mem_filter.mpr ⟨List.mem_range.mpr hlt, hbit⟩, by omega⟩

theorem mem_elems (s : IntSet) (x : ℕ) : x ∈ s.elems ↔ Mem s.words x := by
  unfold elems Mem
  rw [List.mem_flatMap, List.getD_eq_getElem?_getD]
  constructor
  · rintro ⟨⟨word, i⟩, hp, hx⟩
    obtain ⟨rfl, hbit⟩ := (mem_wordElems _ x).mp hx
    rw [List.mem_zipIdx_iff_getElem?] at hp
    rw [hp]
    exact hbit
  · intro hbit
    cases hw : s.words[x / 64]? with
    | none =>
      rw [hw] at hbit
      exact absurd (BitVec.getLsbD_zero.symm.trans hbit) Bool.false_ne_true
    | some word =>
      rw [hw] at hbit
      exact ⟨(word, x / 64), List.mem_zipIdx_iff_getElem?.mpr hw, (mem_wordElems _ x).mpr ⟨rfl, hbit⟩⟩

theorem elems_pairwise (s : IntSet) : s.elems.Pairwise (· < ·) := by
  unfold elems
  rw [List.pairwise_flatMap]
  constructor
  · intro p _
    unfold wordElems
    refine List.pairwise_map.mpr ((List.pairwise_lt_range.filter _).imp fun h => ?_)
    exact Nat.add_lt_add_left h _
  · have hidx : (s.words.zipIdx.map Prod.snd).Pairwise (· < ·) := by
      rw [List.zipIdx_map_snd]
      exact List.pairwise_lt_range'
    refine (List.pairwise_map.mp hidx).imp fun {p q} hlt x hx y hy => ?_
    have hp := ((mem_wordElems p x).mp hx).1
    have hq := ((mem_wordElems q y).mp hy).1
    omega

/-! ## What is printed -/

theorem hasBit_zero (j : ℕ) : hasBit 0 j = false := by
  unfold hasBit
  rw [show (0 : Word) &&& 1#64 <<< j = 0 from BitVec.zero_and]
  rfl

/-- A word without bits is left out, and has none to print. -/
theorem String_eq (s : IntSet) : s.String = s.elems.foldl writeInt ['{'] ++ ['}'] := by
  unfold String elems
  rw [← foldl_words]
  congr 3
  funext buf p
  by_cases hp : p.1 = 0
  · rw [if_pos hp, hp, ← List.foldl_filter,
      List.filter_eq_nil_iff.mpr fun j _ => Bool.eq_false_iff.mp (hasBit_zero j)]
    rfl
  · rw [if_neg hp]

theorem digits_length_pos (x : ℕ) : 0 < (digits x).length := Nat.length_toDigits_pos

theorem foldl_writeInt (xs : List ℕ) {buf : List Char} (hbuf : 1 < buf.length) :
    xs.foldl writeInt buf = buf ++ xs.flatMap fun x => ' ' :: digits x := by
  induction xs generalizing buf with
  | nil => exact (List.append_nil buf).symm
  | cons x xs ih =>
    rw [List.foldl_cons, writeInt, if_pos hbuf, List.append_assoc, ih, List.flatMap_cons, List.append_assoc]
    · rfl
    · rw [List.length_append]
      omega

/-- A set as it is printed: the numbers in a row, with blanks between. -/
def render (xs : List ℕ) : List Char := '{' :: (List.intercalate [' '] (xs.map digits) ++ ['}'])

theorem intercalate_cons (x : ℕ) (xs : List ℕ) :
    List.intercalate [' '] ((x :: xs).map digits) = digits x ++ xs.flatMap fun x => ' ' :: digits x := by
  induction xs generalizing x with
  | nil => rw [List.map_cons, List.map_nil, List.intercalate_singleton, List.flatMap_nil, List.append_nil]
  | cons y ys ih =>
    rw [List.map_cons, List.map_cons, List.intercalate_cons_cons, ← List.map_cons, ih, List.flatMap_cons,
      List.append_assoc]
    rfl

theorem String_eq_render (s : IntSet) : s.String = render s.elems := by
  rw [String_eq, render]
  cases s.elems with
  | nil => rfl
  | cons x xs =>
    have hpos := digits_length_pos x
    rw [List.foldl_cons, writeInt, if_neg (by decide), foldl_writeInt, intercalate_cons]
    · simp only [List.append_assoc, List.cons_append, List.nil_append]
    · rw [List.length_append, List.length_singleton]
      omega

end IntSet

/-! ## Programs over sets -/

inductive SetCmd (ν : Type)
  | add (v : ν) (x : ℕ)
  | addAll (v : ν) (numbers : List ℕ)
  | remove (v : ν) (x : ℕ)
  | unionWith (v w : ν)
  | clear (v : ν)
  | copy (v w : ν)

section Runs

variable {ν : Type} [DecidableEq ν]

/-- The variables `v` hold sets; `copy v w` is `v = w.Copy()`. -/
def execCmd (sets : ν → IntSet) : SetCmd ν → ν → IntSet
  | .add v x => Function.update sets v ((sets v).Add x)
  | .addAll v numbers => Function.update sets v ((sets v).AddAll numbers)
  | .remove v x => Function.update sets v ((sets v).Remove x)
  | .unionWith v w => Function.update sets v ((sets v).UnionWith (sets w))
  | .clear v => Function.update sets v (sets v).Clear
  | .copy v w => Function.update sets v (sets w).Copy

/-- What the commands are meant to do. -/
def specCmd (sets : ν → Finset ℕ) : SetCmd ν → ν → Finset ℕ
  | .add v x => Function.update sets v (insert x (sets v))
  | .addAll v numbers => Function.update sets v (numbers.toFinset ∪ sets v)
  | .remove v x => Function.update sets v ((sets v).erase x)
  | .unionWith v w => Function.update sets v (sets v ∪ sets w)
  | .clear v => Function.update sets v ∅
  | .copy v w => Function.update sets v (sets w)

/-- The set has these numbers. -/
def Represents (s : IntSet) (A : Finset ℕ) : Prop := ∀ x, IntSet.Mem s.words x ↔ x ∈ A

theorem represents_update {sets : ν → IntSet} {As : ν → Finset ℕ} (h : ∀ v, Represents (sets v) (As v)) (v : ν)
    {s : IntSet} {A : Finset ℕ} (hs : Represents s A) (w : ν) :
    Represents (Function.update sets v s w) (Function.update As v A w) := by
  by_cases hw : w = v
  · rw [hw, Function.update_self, Function.update_self]
    exact hs
  · rw [Function.update_of_ne hw, Function.update_of_ne hw]
    exact h w

/-- One command. -/
theorem represents_exec {sets : ν → IntSet} {As : ν → Finset ℕ} (h : ∀ v, Represents (sets v) (As v)) (c : SetCmd ν) :
    ∀ v, Represents (execCmd sets c v) (specCmd As c v) := by
  cases c with
  | add v x =>
    refine represents_update h v fun y => ?_
    rw [IntSet.mem_Add, Finset.mem_insert, h v y]
  | addAll v numbers =>
    refine represents_update h v fun y => ?_
    rw [IntSet.mem_AddAll, Finset.mem_union, List.mem_toFinset, h v y]
  | remove v x =>
    refine represents_update h v fun y => ?_
    rw [IntSet.mem_Remove, Finset.mem_erase, h v y]
  | unionWith v w =>
    refine represents_update h v fun y => ?_
    rw [IntSet.mem_UnionWith, Finset.mem_union, h v y, h w y]
  | clear v =>
    refine represents_update h v fun y => ?_
    exact ⟨fun hy => absurd hy (IntSet.mem_nil y), fun hy => absurd hy (Finset.notMem_empty y)⟩
  | copy v w => exact represents_update h v (h w)

theorem represents_run {sets : ν → IntSet} {As : ν → Finset ℕ} (h : ∀ v, Represents (sets v) (As v))
    (cmds : List (SetCmd ν)) : ∀ v, Represents (cmds.foldl execCmd sets v) (cmds.foldl specCmd As v) := by
  induction cmds generalizing sets As with
  | nil => exact h
  | cons c cmds ih => exact ih (represents_exec h c)

theorem Represents.sort_eq {s : IntSet} {A : Finset ℕ} (h : Represents s A) : A.sort (· ≤ ·) = s.elems := by
  have hA : A = s.elems.toFinset := by
    ext x
    rw [List.mem_toFinset, IntSet.mem_elems, h x]
  have hpairwise := s.elems_pairwise
  rw [hA]
  exact (List.toFinset_sort (· ≤ ·) (hpairwise.imp Nat.ne_of_lt)).mpr (hpairwise.imp Nat.le_of_lt)

/-- **Sets of numbers**: after any program over any number of sets, all of them empty at the start, each set has the
numbers that it should have, counts them and prints them in ascending order. -/
theorem run_refines (cmds : List (SetCmd ν)) (v : ν) :
    let s := cmds.foldl execCmd (fun _ => ⟨[]⟩) v
    let A := cmds.foldl specCmd (fun _ => ∅) v
    (∀ x, s.Has x = true ↔ x ∈ A) ∧ s.Len = A.card ∧ s.String = IntSet.render (A.sort (· ≤ ·)) := by
  intro s A
  have h : Represents s A := represents_run (fun _ y => ⟨fun hy => absurd hy (IntSet.mem_nil y),
    fun hy => absurd hy (Finset.notMem_empty y)⟩) cmds v
  refine ⟨fun x => (s.Has_iff x).trans (h x), ?_, ?_⟩
  · rw [IntSet.Len_eq, ← h.sort_eq, Finset.length_sort]
  · rw [IntSet.String_eq_render, h.sort_eq]

end Runs

end Csapp.Store
