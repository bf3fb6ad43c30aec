import Csapp.Lib.Cover
import Csapp.Perf.Kernels

/-!
# Perf.Rotate — the rotation kernels of `kernels.c`

`rotate` works on blocks of 8 by 8 pixels and has no bound for the blocks at the right and the lower edge.  It does
what `naive_rotate` does where `dim` is a multiple of 8, and leaves the image everywhere else (`rotate_eq_iff`).
-/

namespace Csapp.Perf

open Csapp.Lib

/-- `RIDX(i, j, n)`, for a row that may be negative. -/
def ridxInt (i j n : Int) : Int := i * n + j

/-- `src[k]`. -/
def pixelAt (src : List Pixel) (k : Int) : Option Pixel := if 0 ≤ k then src[k.toNat]? else none

/-- `dst[k] = p`. -/
def setPixel (dst : List Pixel) (k : Int) (p : Pixel) : Option (List Pixel) :=
  if 0 ≤ k ∧ k < dst.length then some (dst.set k.toNat p) else none

/-- `dst[RIDX(dim-1-j, i, dim)] = src[RIDX(i, j, dim)]`. -/
def rotatePixel (dim : ℕ) (src : List Pixel) (i j : ℕ) (dst : List Pixel) : Option (List Pixel) := do
  let p ← pixelAt src (ridxInt i j dim)
  setPixel dst (ridxInt (dim - 1 - j) i dim) p

def naiveRotate (dim : ℕ) (src dst : List Pixel) : Option (List Pixel) :=
  forRange 0 dim (fun i => forRange 0 dim fun j => rotatePixel dim src i j) dst

def rotate (dim : ℕ) (src dst : List Pixel) : Option (List Pixel) :=
  forStep 0 dim 8 (fun bi => forStep 0 dim 8 fun bj =>
    forRange bi (bi + 8) fun i => forRange bj (bj + 8) fun j => rotatePixel dim src i j) dst

section Rotation

variable {dim : ℕ} {src dst₀ dst : List Pixel} {P : Set (ℕ × ℕ)}

/-- The place of the pixel of row `i` and column `j`, a quarter turn to the left. -/
def turned (dim i j : ℕ) : ℕ := (dim - 1 - j) * dim + i

/-- The pixels of `P` have been rotated into `dst`, which was `dst₀`. -/
structure Rotated (dim : ℕ) (src dst₀ : List Pixel) (P : Set (ℕ × ℕ)) (dst : List Pixel) : Prop where
  length : dst.length = dim * dim
  done : ∀ i < dim, ∀ j < dim, (i, j) ∈ P → dst[turned dim i j]? = src[i * dim + j]?
  same : ∀ i < dim, ∀ j < dim, (i, j) ∉ P → dst[turned dim i j]? = dst₀[turned dim i j]?

theorem turned_lt {i j : ℕ} (hi : i < dim) : turned dim i j < dim * dim := cell_lt (by omega) hi

theorem turned_inj {i j i' j' : ℕ} (hi : i < dim) (hj : j < dim) (hi' : i' < dim) (hj' : j' < dim)
    (h : turned dim i j = turned dim i' j') : (i, j) = (i', j') := by
  obtain ⟨hrow, rfl⟩ := cell_inj hi hi' h
  obtain rfl : j = j' := by omega
  rfl

theorem pixelAt_ridxInt (src : List Pixel) (i j dim : ℕ) : pixelAt src (ridxInt i j dim) = src[i * dim + j]? := by
  have hidx : ridxInt i j dim = ((i * dim + j : ℕ) : Int) := by
    unfold ridxInt
    push_cast
    rfl
  unfold pixelAt
  rw [hidx, if_pos (Int.natCast_nonneg _), Int.toNat_natCast]

theorem rotatePixel_eq (hsrc : src.length = dim * dim) (hdst : dst.length = dim * dim) {i j : ℕ} (hi : i < dim)
    (hj : j < dim) : ∃ p, src[i * dim + j]? = some p ∧
      rotatePixel dim src i j dst = some (dst.set (turned dim i j) p) := by
  have hlt : i * dim + j < src.length := hsrc ▸ cell_lt hi hj
  refine ⟨src[i * dim + j], List.getElem?_eq_getElem hlt, ?_⟩
  have hdstIdx : ridxInt (dim - 1 - j) i dim = ((turned dim i j : ℕ) : Int) := by
    have hrow : ((dim - 1 - j : ℕ) : Int) = dim - 1 - j := by omega
    unfold ridxInt turned
    push_cast
    rw [hrow]
  have hlt' : turned dim i j < dst.length := hdst ▸ turned_lt hi
  unfold rotatePixel setPixel
  rw [pixelAt_ridxInt, hdstIdx, List.getElem?_eq_getElem hlt]
  exact if_pos ⟨Int.natCast_nonneg _, Int.ofNat_lt.mpr hlt'⟩

theorem rotatePixel_covers (hsrc : src.length = dim * dim) {i j : ℕ} (hi : i < dim) (hj : j < dim) :
    RunsOver (Rotated dim src dst₀) (rotatePixel dim src i j) {(i, j)} := by
  intro P dst h
  obtain ⟨p, hp, hstep⟩ := rotatePixel_eq hsrc h.length hi hj
  refine ⟨_, hstep, ?_, fun i' hi' j' hj' hmem => ?_, fun i' hi' j' hj' hmem => ?_⟩
  · rw [List.length_set]
    exact h.length
  · by_cases heq : turned dim i j = turned dim i' j'
    · obtain ⟨rfl, rfl⟩ := Prod.mk.inj (turned_inj hi hj hi' hj' heq)
      rw [List.getElem?_set_self (by rw [h.length]; exact turned_lt hi), hp]
    · rw [List.getElem?_set_ne heq]
      refine h.done i' hi' j' hj' (hmem.resolve_right fun hself => heq ?_)
      obtain ⟨rfl, rfl⟩ := Prod.mk.inj (Set.mem_singleton_iff.mp hself)
      rfl
  · have hne : turned dim i j ≠ turned dim i' j' := fun heq =>
      hmem (Or.inr (Set.mem_singleton_iff.mpr (turned_inj hi hj hi' hj' heq).symm))
    rw [List.getElem?_set_ne hne]
    exact h.same i' hi' j' hj' fun h' => hmem (Or.inl h')

/-! ## The loops -/

theorem naiveRotate_covers (hsrc : src.length = dim * dim) :
    RunsOver (Rotated dim src dst₀) (naiveRotate dim src) {x | x.1 < dim ∧ x.2 < dim} := by
  refine (RunsOver.forRange (Nat.zero_le dim) fun i _ hi => RunsOver.forRange (Nat.zero_le dim) fun j _ hj =>
    rotatePixel_covers hsrc hi hj).congr ?_
  ext x
  constructor
  · rintro ⟨i, -, hi, j, -, hj, rfl⟩
    exact ⟨hi, hj⟩
  · rintro ⟨hi, hj⟩
    exact ⟨x.1, Nat.zero_le _, hi, x.2, Nat.zero_le _, hj, rfl⟩

theorem rotate_covers (hsrc : src.length = dim * dim) (hdvd : 8 ∣ dim) :
    RunsOver (Rotated dim src dst₀) (rotate dim src) {x | x.1 < dim ∧ x.2 < dim} := by
  refine (RunsOver.forStep (by decide) fun k hk => RunsOver.forStep (by decide) fun l hl =>
    RunsOver.forRange (Nat.le_add_right _ 8) fun i _ hi => RunsOver.forRange (Nat.le_add_right _ 8) fun j _ hj =>
      rotatePixel_covers hsrc (by omega) (by omega)).congr ?_
  ext x
  constructor
  · rintro ⟨k, hk, l, hl, i, -, hi, j, -, hj, rfl⟩
    exact ⟨show i < dim by omega, show j < dim by omega⟩
  · rintro ⟨hi, hj⟩
    exact ⟨x.1 / 8, by omega, x.2 / 8, by omega, x.1, by omega, by omega, x.2, by omega, by omega, rfl⟩

theorem rotated_start (hdst : dst.length = dim * dim) : Rotated dim src dst ∅ dst :=
  ⟨hdst, fun _ _ _ _ h => absurd h (Set.notMem_empty _), fun _ _ _ _ _ => rfl⟩

/-- Each place of the destination is that of one pixel. -/
theorem exists_turned {k : ℕ} (hk : k < dim * dim) : ∃ i < dim, ∃ j < dim, turned dim i j = k := by
  have hpos : 0 < dim := Nat.pos_of_ne_zero fun h => by
    rw [h] at hk
    omega
  have hrow : k / dim < dim := Nat.div_lt_of_lt_mul hk
  have hk' : k / dim * dim + k % dim = k := by rw [Nat.mul_comm, Nat.div_add_mod]
  generalize k / dim = q at hrow hk'
  refine ⟨k % dim, Nat.mod_lt k hpos, dim - 1 - q, by omega, ?_⟩
  unfold turned
  rw [show dim - 1 - (dim - 1 - q) = q by omega]
  exact hk'

theorem Rotated.unique {dst' : List Pixel} (h : Rotated dim src dst₀ {x | x.1 < dim ∧ x.2 < dim} dst)
    (h' : Rotated dim src dst₀ {x | x.1 < dim ∧ x.2 < dim} dst') : dst = dst' := by
  apply List.ext_getElem?
  intro k
  by_cases hk : k < dim * dim
  · obtain ⟨i, hi, j, hj, rfl⟩ := exists_turned hk
    rw [h.done i hi j hj ⟨hi, hj⟩, h'.done i hi j hj ⟨hi, hj⟩]
  · rw [List.getElem?_eq_none (by rw [h.length]; omega), List.getElem?_eq_none (by rw [h'.length]; omega)]

/-- The last pixel of the last block lies behind the image. -/
theorem rotate_eq_none (hsrc : src.length = dim * dim) (hdvd : ¬8 ∣ dim) : rotate dim src dst = none := by
  have hlast : 0 + dim / 8 * 8 < dim := by omega
  have hout : ∀ t, rotatePixel dim src (dim / 8 * 8 + 7) (dim / 8 * 8 + 7) t = none := fun t => by
    have hrow : dim ≤ dim / 8 * 8 + 7 := by omega
    have hmul := Nat.mul_le_mul_right dim hrow
    unfold rotatePixel
    rw [pixelAt_ridxInt, List.getElem?_eq_none (by rw [hsrc]; exact Nat.le_add_right_of_le hmul)]
    rfl
  unfold rotate
  refine forStep_eq_none dst hlast fun t => forStep_eq_none t hlast fun t => ?_
  rw [Nat.zero_add]
  exact forRange_eq_none t (Nat.le_add_right _ 7) (by omega) fun t =>
    forRange_eq_none t (Nat.le_add_right _ 7) (by omega) hout

/-- **The blocked rotation**: on images of `dim` by `dim` pixels, `naive_rotate` turns the image by a quarter to the
left, and `rotate` does the same just if `dim` is a multiple of 8; if not, it accesses a pixel outside of the arrays. -/
theorem rotate_eq_iff (hsrc : src.length = dim * dim) (hdst : dst.length = dim * dim) :
    (∃ dst', naiveRotate dim src dst = some dst' ∧ dst'.length = dim * dim ∧
      ∀ i < dim, ∀ j < dim, dst'[(dim - 1 - j) * dim + i]? = src[i * dim + j]?) ∧
      (rotate dim src dst = naiveRotate dim src dst ↔ 8 ∣ dim) ∧ (¬8 ∣ dim → rotate dim src dst = none) := by
  obtain ⟨dst', hnaive, hrotated⟩ := naiveRotate_covers hsrc ∅ dst (rotated_start hdst)
  rw [Set.empty_union] at hrotated
  refine ⟨⟨dst', hnaive, hrotated.length, fun i hi j hj => hrotated.done i hi j hj ⟨hi, hj⟩⟩,
    ⟨fun heq => ?_, fun hdvd => ?_⟩, rotate_eq_none hsrc⟩
  · by_contra hdvd
    rw [rotate_eq_none hsrc hdvd, hnaive] at heq
    cases heq
  · obtain ⟨dst'', hblocked, hrotated'⟩ := rotate_covers hsrc hdvd ∅ dst (rotated_start hdst)
    rw [Set.empty_union] at hrotated'
    rw [hnaive, hblocked, hrotated.unique hrotated']

end Rotation

/-- An image whose pixels are numbered. -/
def sampleImage (dim : ℕ) : List Pixel := (List.range (dim * dim)).map fun k =>
  let n := UInt16.ofNat k
  ⟨n, n + 1, n + 2⟩

/-- Images of 8 by 8 and of 10 by 10 pixels: of the second, the upper right corner goes to the upper left. -/
theorem rotate_eq_iff_sample :
    rotate 8 (sampleImage 8) (sampleImage 8) = naiveRotate 8 (sampleImage 8) (sampleImage 8) ∧
      rotate 10 (sampleImage 10) (sampleImage 10) = none ∧
      ∃ dst', naiveRotate 10 (sampleImage 10) (sampleImage 10) = some dst' ∧ dst'[0]? = some ⟨9, 10, 11⟩ := by
  have hlen : ∀ dim, (sampleImage dim).length = dim * dim := fun dim => by
    rw [sampleImage, List.length_map, List.length_range]
  obtain ⟨⟨dst', hnaive, -, hturned⟩, -, hnone⟩ := rotate_eq_iff (hlen 10) (hlen 10)
  refine ⟨(rotate_eq_iff (hlen 8) (hlen 8)).2.1.mpr (by decide), hnone (by decide), dst', hnaive, ?_⟩
  exact (hturned 0 (by decide) 9 (by decide)).trans (by decide)

end Csapp.Perf
