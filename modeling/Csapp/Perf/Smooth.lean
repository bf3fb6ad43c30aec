import Csapp.Perf.Kernels
import Mathlib.Algebra.BigOperators.Intervals
import Mathlib.Algebra.Order.BigOperators.Group.Finset
import Mathlib.Data.Nat.Cast.Order.Ring

/-!
# Perf.Smooth — the sliding sums compute the averages

`mean dim src i j` is the average over the window around a pixel, clipped at the edges of the image.
Both kernels write it to every pixel, in the order of the indices: `Done k dst` says that exactly the
first `k` pixels have been written.  In `smooth`, `left` and `mid` hold the column sums on both sides of
the loop index, and `sum` holds their sum; all sums stay below `2 ^ 32`.
-/

namespace Csapp.Perf

open Csapp.Lib Finset

/-! ## Channels -/

inductive Channel
  | red
  | green
  | blue

namespace Rgb

variable {α β γ : Type*}

def get (c : Channel) (x : Rgb α) : α :=
  match c with
  | .red => x.red
  | .green => x.green
  | .blue => x.blue

theorem ext_get {x y : Rgb α} (h : ∀ c, x.get c = y.get c) : x = y := by
  cases x
  cases y
  exact congr (congr (congrArg Rgb.mk (h .red)) (h .green)) (h .blue)

@[simp] theorem get_map (f : α → β) (x : Rgb α) (c : Channel) : (x.map f).get c = f (x.get c) := by
  cases c <;> rfl

@[simp] theorem get_zipWith (f : α → β → γ) (x : Rgb α) (y : Rgb β) (c : Channel) :
    (zipWith f x y).get c = f (x.get c) (y.get c) := by
  cases c <;> rfl

end Rgb

/-! ## Windows -/

/-- The rows, or the columns, next to `i`. -/
def near (dim i : ℕ) : Finset ℕ := Ico (i - 1) (min (i + 1) (dim - 1) + 1)

/-- A channel of a source pixel. -/
def value (dim : ℕ) (src : List Pixel) (c : Channel) (i j : ℕ) : ℕ :=
  (src[ridx i j dim]?.map fun p => (p.get c).toNat).getD 0

/-- The sum over the window around `(i, j)`. -/
def total (dim : ℕ) (src : List Pixel) (c : Channel) (i j : ℕ) : ℕ :=
  ∑ ii ∈ near dim i, ∑ jj ∈ near dim j, value dim src c ii jj

def channelMean (dim : ℕ) (src : List Pixel) (i j : ℕ) (c : Channel) : UInt16 :=
  UInt16.ofNat (total dim src c i j / (#(near dim i) * #(near dim j)))

def mean (dim : ℕ) (src : List Pixel) (i j : ℕ) : Pixel :=
  ⟨channelMean dim src i j .red, channelMean dim src i j .green, channelMean dim src i j .blue⟩

theorem get_mean (dim : ℕ) (src : List Pixel) (i j : ℕ) (c : Channel) :
    (mean dim src i j).get c = channelMean dim src i j c := by
  cases c <;> rfl

section Windows

variable {dim i : ℕ} (f : ℕ → ℕ)

theorem sum_near_first (h : 2 ≤ dim) : ∑ r ∈ near dim 0, f r = f 0 + f 1 := by
  rw [near, show min (0 + 1) (dim - 1) + 1 = 2 by omega]
  simp [sum_range_succ]

theorem sum_near_inner (h1 : 1 ≤ i) (h2 : i < dim - 1) :
    ∑ r ∈ near dim i, f r = f (i - 1) + f i + f (i + 1) := by
  rw [near, sum_Ico_eq_sum_range, show min (i + 1) (dim - 1) + 1 - (i - 1) = 3 by omega]
  simp [sum_range_succ, show i - 1 + 1 = i by omega, show i - 1 + 2 = i + 1 by omega]

theorem sum_near_last (h : 2 ≤ dim) : ∑ r ∈ near dim (dim - 1), f r = f (dim - 2) + f (dim - 1) := by
  rw [near, sum_Ico_eq_sum_range, show min (dim - 1 + 1) (dim - 1) + 1 - (dim - 1 - 1) = 2 by omega]
  simp [sum_range_succ, show dim - 1 - 1 = dim - 2 by omega, show dim - 2 + 1 = dim - 1 by omega]

end Windows

/-! ## Progress -/

/-- The first `k` pixels have been written, each of them once. -/
structure Done (dim : ℕ) (src : List Pixel) (k : ℕ) (dst : Image) : Prop where
  length : dst.pixels.length = dim * dim
  writes : dst.writes = List.range k
  pixels : ∀ m < k, dst.pixels[m]? = some (mean dim src (m / dim) (m % dim))

theorem ridx_lt {i j dim : ℕ} (hi : i < dim) (hj : j < dim) : ridx i j dim < dim * dim := by
  calc i * dim + j < i * dim + dim := by omega
    _ = (i + 1) * dim := (Nat.succ_mul i dim).symm
    _ ≤ dim * dim := Nat.mul_le_mul_right dim hi

theorem Done.write {dim i j : ℕ} {src : List Pixel} {dst : Image} (h : Done dim src (ridx i j dim) dst)
    (hi : i < dim) (hj : j < dim) {p : Pixel} (hp : p = mean dim src i j) :
    ∃ dst', dst.write (ridx i j dim) p = some dst' ∧ Done dim src (ridx i (j + 1) dim) dst' := by
  have hlt : ridx i j dim < dst.pixels.length := by
    rw [h.length]
    exact ridx_lt hi hj
  have hsucc : ridx i (j + 1) dim = ridx i j dim + 1 := rfl
  refine ⟨_, if_pos hlt, ?_, ?_, fun m hm => ?_⟩
  · rw [List.length_set, h.length]
  · rw [h.writes, hsucc, List.range_succ]
  · rw [List.getElem?_set]
    split_ifs with hk
    · have hdiv : ridx i j dim / dim = i := by
        rw [ridx, Nat.mul_comm, Nat.mul_add_div (by omega), Nat.div_eq_of_lt hj, Nat.add_zero]
      have hmod : ridx i j dim % dim = j := by
        rw [ridx, Nat.mul_comm, Nat.mul_add_mod, Nat.mod_eq_of_lt hj]
      rw [← hk, hdiv, hmod, hp]
    · exact h.pixels m (by omega)

theorem ridx_next_row (i dim : ℕ) : ridx i dim dim = ridx (i + 1) 0 dim := by
  rw [ridx, ridx, Nat.succ_mul, Nat.add_zero]

/-! ## naive_smooth -/

section Naive

variable {dim : ℕ} {src : List Pixel}

theorem value_eq {c : Channel} {i j : ℕ} {p : Pixel} (h : src[ridx i j dim]? = some p) :
    value dim src c i j = (p.get c).toNat := by
  rw [value, h]
  rfl

theorem exists_pixel (hs : src.length = dim * dim) {i j : ℕ} (hi : i < dim) (hj : j < dim) :
    ∃ p, src[ridx i j dim]? = some p :=
  ⟨_, List.getElem?_eq_getElem (by rw [hs]; exact ridx_lt hi hj)⟩

theorem avgRow_spec (hs : src.length = dim * dim) {ii j : ℕ} (hi : ii < dim) (hj : j < dim) (sum : PixelSum) :
    ∃ sum', avgRow dim j src ii sum = some sum' ∧ sum'.num = sum.num + #(near dim j) ∧
      ∀ c, sum'.toRgb.get c = sum.toRgb.get c + ∑ jj ∈ near dim j, value dim src c ii jj := by
  unfold avgRow near
  rw [Nat.card_Ico]
  refine forRange_inv _ (fun jj (s : PixelSum) => s.num = sum.num + (jj - (j - 1)) ∧
    ∀ c, s.toRgb.get c = sum.toRgb.get c + ∑ k ∈ Ico (j - 1) jj, value dim src c ii k)
    (by omega) ⟨by omega, by simp⟩ ?_
  rintro jj s hlo hhi ⟨hn, hc⟩
  obtain ⟨p, hp⟩ := exists_pixel hs hi (show jj < dim by omega)
  refine ⟨accumulateSum s p, by rw [hp]; rfl, ?_, fun c => ?_⟩
  · show s.num + 1 = _
    omega
  · rw [sum_Ico_succ_top hlo, value_eq hp, ← Nat.add_assoc, ← hc]
    exact Rgb.get_zipWith _ _ _ c

/-- `avg` returns the mean. -/
theorem avg_spec (hs : src.length = dim * dim) {i j : ℕ} (hi : i < dim) (hj : j < dim) :
    avg dim i j src = some (mean dim src i j) := by
  have hloop : ∃ s, forRange (i - 1) (min (i + 1) (dim - 1) + 1) (avgRow dim j src) initializePixelSum = some s ∧
      s.num = (min (i + 1) (dim - 1) + 1 - (i - 1)) * #(near dim j) ∧
      ∀ c, s.toRgb.get c = total dim src c i j := by
    refine forRange_inv _ (fun ii (s : PixelSum) => s.num = (ii - (i - 1)) * #(near dim j) ∧
      ∀ c, s.toRgb.get c = ∑ k ∈ Ico (i - 1) ii, ∑ jj ∈ near dim j, value dim src c k jj)
      (by omega) ⟨by rw [Nat.sub_self, Nat.zero_mul]; rfl, fun c => ?_⟩ ?_
    · rw [Ico_self, sum_empty]
      cases c <;> rfl
    · rintro ii s hlo hhi ⟨hn, hc⟩
      obtain ⟨s', h1, h2, h3⟩ := avgRow_spec hs (show ii < dim by omega) hj s
      refine ⟨s', h1, ?_, fun c => ?_⟩
      · rw [h2, hn, show ii + 1 - (i - 1) = (ii - (i - 1)) + 1 by omega, Nat.succ_mul]
      · rw [h3, hc, sum_Ico_succ_top hlo]
  obtain ⟨sum, h1, h2, h3⟩ := hloop
  have hcard : #(near dim i) = min (i + 1) (dim - 1) + 1 - (i - 1) := Nat.card_Ico _ _
  rw [avg, h1]
  refine congrArg some (Rgb.ext_get fun c => ?_)
  rw [assignSumToPixel, Rgb.get_map, get_mean, channelMean, h2, h3, hcard]

theorem naiveSmooth_spec (hs : src.length = dim * dim) {dst : Image} (h : Done dim src 0 dst) :
    ∃ out, naiveSmooth dim src dst = some out ∧ Done dim src (dim * dim) out := by
  refine forRange_inv _ (fun i out => Done dim src (ridx i 0 dim) out) (Nat.zero_le dim)
    (by simpa [ridx] using h) fun i dst _ hi hd => ?_
  rw [← ridx_next_row]
  refine forRange_inv _ (fun j out => Done dim src (ridx i j dim) out) (Nat.zero_le dim) hd
    fun j dst _ hj hd => ?_
  rw [avg_spec hs hi hj]
  exact hd.write hi hj rfl

end Naive

/-! ## Column sums -/

/-- `x` holds the sums `f`, modulo `2 ^ 32`. -/
def Holds (x : Pixel32) (f : Channel → ℕ) : Prop := ∀ c, x.get c = UInt32.ofNat (f c)

/-- The sum of column `j` over the source rows. -/
def column (dim : ℕ) (src : List Pixel) (rows : List ℕ) (j : ℕ) (c : Channel) : ℕ :=
  (rows.map fun r => value dim src c r j).sum

section Columns

variable {dim : ℕ} {src : List Pixel} {x y : Pixel32} {f g : Channel → ℕ}

theorem holds_init : Holds Pixel32.init fun _ => 0 := by
  intro c
  cases c <;> rfl

theorem Holds.congr (hx : Holds x f) (h : ∀ c, f c = g c) : Holds x g := by
  intro c
  rw [hx c, h c]

theorem Holds.add (hx : Holds x f) (hy : Holds y g) : Holds (x.add y) fun c => f c + g c := by
  intro c
  rw [Pixel32.add, Rgb.get_zipWith, hx c, hy c, UInt32.ofNat_add]

/-- The unsigned subtraction takes a summand back. -/
theorem Holds.sub (hx : Holds x fun c => f c + g c) (hy : Holds y f) : Holds (x.sub y) g := by
  intro c
  rw [Pixel32.sub, Rgb.get_zipWith, hx c, hy c, UInt32.ofNat_add, UInt32.add_comm, UInt32.add_sub_cancel]

theorem Holds.addPixel (hx : Holds x f) {r j : ℕ} {p : Pixel} (hp : src[ridx r j dim]? = some p) :
    Holds (x.addPixel p) fun c => f c + value dim src c r j := by
  intro c
  show (x.addPixel p).get c = UInt32.ofNat (f c + value dim src c r j)
  rw [Pixel32.addPixel, Rgb.get_zipWith, hx c, value_eq hp, UInt32.ofNat_add, UInt32.ofNat_uInt16ToNat]

/-- The division is exact as long as the sums fit. -/
theorem Holds.toPixel (hx : Holds x f) {scale : UInt32} (hf : ∀ c, f c < 2 ^ 32) (c : Channel) :
    (x.toPixel scale).get c = UInt16.ofNat (f c / scale.toNat) := by
  rw [Pixel32.toPixel, Rgb.get_map, hx c, ← UInt16.ofNat_uInt32ToNat, UInt32.toNat_div,
    UInt32.toNat_ofNat', Nat.mod_eq_of_lt (hf c)]

theorem column_cons (r : ℕ) (rows : List ℕ) (j : ℕ) (c : Channel) : column dim src (r :: rows) j c =
    value dim src c r j + column dim src rows j c := by
  rw [column, List.map_cons, List.sum_cons]
  rfl

theorem nextColumn_spec (hs : src.length = dim * dim) {j : ℕ} (hj : j < dim) : ∀ (rows : List ℕ) {x : Pixel32}
    {f : Channel → ℕ}, (∀ r ∈ rows, r < dim) → Holds x f →
      ∃ y, nextColumn dim src j rows x = some y ∧ Holds y fun c => f c + column dim src rows j c
  | [], x, f, _, hx => ⟨x, rfl, hx⟩
  | r :: rows, x, f, hr, hx => by
    obtain ⟨p, hp⟩ := exists_pixel hs (hr r List.mem_cons_self) hj
    obtain ⟨y, h1, h2⟩ := nextColumn_spec hs hj rows (fun r' hr' => hr r' (List.mem_cons_of_mem r hr'))
      (hx.addPixel hp)
    refine ⟨y, ?_, fun c => ?_⟩
    · rw [nextColumn, hp]
      exact h1
    · show y.get c = UInt32.ofNat (f c + column dim src (r :: rows) j c)
      rw [column_cons, ← Nat.add_assoc]
      exact h2 c

theorem firstColumns_spec (hs : src.length = dim * dim) (hd : 2 ≤ dim) : ∀ (rows : List ℕ) {x y : Pixel32}
    {f g : Channel → ℕ}, (∀ r ∈ rows, r < dim) → Holds x f → Holds y g →
      ∃ x' y', firstColumns dim src rows x y = some (x', y') ∧
        Holds x' (fun c => f c + column dim src rows 0 c) ∧ Holds y' fun c => g c + column dim src rows 1 c
  | [], x, y, f, g, _, hx, hy => ⟨x, y, rfl, hx, hy⟩
  | r :: rows, x, y, f, g, hr, hx, hy => by
    obtain ⟨p, hp⟩ := exists_pixel hs (hr r List.mem_cons_self) (show 0 < dim by omega)
    obtain ⟨q, hq⟩ := exists_pixel hs (hr r List.mem_cons_self) (show 1 < dim by omega)
    obtain ⟨x', y', h1, h2, h3⟩ := firstColumns_spec hs hd rows
      (fun r' hr' => hr r' (List.mem_cons_of_mem r hr')) (hx.addPixel hp) (hy.addPixel hq)
    refine ⟨x', y', ?_, fun c => ?_, fun c => ?_⟩
    · rw [firstColumns, hp, hq]
      exact h1
    · show x'.get c = UInt32.ofNat (f c + column dim src (r :: rows) 0 c)
      rw [column_cons, ← Nat.add_assoc]
      exact h2 c
    · show y'.get c = UInt32.ofNat (g c + column dim src (r :: rows) 1 c)
      rw [column_cons, ← Nat.add_assoc]
      exact h3 c

end Columns

/-! ## smooth -/

/-- `rows` are the rows next to `i`. -/
structure RowsOf (dim i : ℕ) (rows : List ℕ) : Prop where
  lt : ∀ r ∈ rows, r < dim
  sum : ∀ f : ℕ → ℕ, (rows.map f).sum = ∑ r ∈ near dim i, f r

section Rows

variable {dim i j : ℕ} {src : List Pixel} {rows : List ℕ}

theorem RowsOf.card (h : RowsOf dim i rows) : #(near dim i) = rows.length := by
  have := h.sum fun _ => 1
  rw [sum_const, Nat.nsmul_eq_mul, Nat.mul_one] at this
  rw [← this]
  simp

/-- The sum over a window, column by column. -/
theorem RowsOf.total_eq (h : RowsOf dim i rows) (c : Channel) :
    total dim src c i j = ∑ jj ∈ near dim j, column dim src rows jj c := by
  rw [total, sum_comm]
  exact sum_congr rfl fun jj _ => (h.sum _).symm

theorem value_lt (c : Channel) (i j : ℕ) : value dim src c i j < 2 ^ 16 := by
  unfold value
  cases src[ridx i j dim]? with
  | none => exact Nat.two_pow_pos 16
  | some p => exact (p.get c).toNat_lt

/-- The window has few pixels, so its sum fits. -/
theorem RowsOf.total_lt (h : RowsOf dim i rows) (hr : rows.length ≤ 3) (c : Channel) :
    total dim src c i j < 2 ^ 32 := by
  have hcard : #(near dim j) ≤ 3 := by
    rw [near, Nat.card_Ico]
    omega
  have hbound : ∀ ii ∈ near dim i, ∑ jj ∈ near dim j, value dim src c ii jj ≤ 3 * 2 ^ 16 := fun ii _ =>
    calc ∑ jj ∈ near dim j, value dim src c ii jj ≤ #(near dim j) * 2 ^ 16 :=
          sum_le_card_nsmul _ _ _ fun jj _ => le_of_lt (value_lt c ii jj)
      _ ≤ 3 * 2 ^ 16 := Nat.mul_le_mul_right _ hcard
  calc total dim src c i j ≤ #(near dim i) * (3 * 2 ^ 16) := sum_le_card_nsmul _ _ _ hbound
    _ ≤ 3 * (3 * 2 ^ 16) := Nat.mul_le_mul_right _ (by rw [h.card]; exact hr)
    _ < 2 ^ 32 := by decide

/-- A sum over the window, divided by its size, is the mean. -/
theorem RowsOf.toPixel_eq (h : RowsOf dim i rows) (hr : rows.length ≤ 3) {x : Pixel32} (scale : UInt32)
    (hx : Holds x fun c => total dim src c i j) (hn : scale.toNat = rows.length * #(near dim j)) :
    x.toPixel scale = mean dim src i j := by
  refine Rgb.ext_get fun c => ?_
  rw [hx.toPixel (fun c => h.total_lt hr c), get_mean, channelMean, h.card, hn]

/-- At the loop index `j`, `left` and `mid` are the columns before it. -/
structure SmoothInv (dim : ℕ) (src : List Pixel) (rows : List ℕ) (i j : ℕ) (s : SmoothState) : Prop where
  left : Holds s.left (column dim src rows (j - 1))
  mid : Holds s.mid (column dim src rows j)
  sum : Holds s.sum fun c => column dim src rows (j - 1) c + column dim src rows j c
  done : Done dim src (ridx i j dim) s.dst

theorem smoothBody_spec (hs : src.length = dim * dim) (h : RowsOf dim i rows) (hr : rows.length ≤ 3)
    (hi : i < dim) {inner : UInt32} (hn : inner.toNat = rows.length * 3) {s : SmoothState} (h1 : 1 ≤ j)
    (h2 : j < dim - 1) (hinv : SmoothInv dim src rows i j s) :
    ∃ s', smoothBody dim src rows i inner j s = some s' ∧ SmoothInv dim src rows i (j + 1) s' := by
  obtain ⟨right, hright, hcol⟩ := nextColumn_spec hs (show j + 1 < dim by omega) rows h.lt holds_init
  simp only [Nat.zero_add] at hcol
  have hsum := hinv.sum.add hcol
  have htotal : Holds (s.sum.add right) fun c => total dim src c i j := hsum.congr fun c => by
    rw [h.total_eq, sum_near_inner _ h1 h2]
  have hcard : #(near dim j) = 3 := by
    rw [near, Nat.card_Ico]
    omega
  obtain ⟨dst', hw, hdone⟩ := hinv.done.write hi (show j < dim by omega)
    (h.toPixel_eq hr inner htotal (by rw [hcard]; exact hn))
  refine ⟨⟨(s.sum.add right).sub s.left, s.mid, right, dst'⟩, ?_, hinv.mid, hcol, ?_, hdone⟩
  · rw [smoothBody, hright]
    show (s.dst.write (ridx i j dim) ((s.sum.add right).toPixel inner)).bind _ = _
    rw [hw]
    rfl
  · exact (hsum.congr fun c => Nat.add_assoc _ _ _).sub hinv.left

/-- **One row.** -/
theorem smoothRow_spec (hs : src.length = dim * dim) (hd : 2 ≤ dim) (h : RowsOf dim i rows)
    (hr : rows.length ≤ 3) (hi : i < dim) {ends inner : UInt32} (hends : ends.toNat = rows.length * 2)
    (hinner : inner.toNat = rows.length * 3) {dst : Image} (hdone : Done dim src (ridx i 0 dim) dst) :
    ∃ dst', smoothRow dim src rows i ends inner dst = some dst' ∧ Done dim src (ridx (i + 1) 0 dim) dst' := by
  obtain ⟨left, mid, hcols, hleft, hmid⟩ := firstColumns_spec hs hd rows h.lt holds_init holds_init
  simp only [Nat.zero_add] at hleft hmid
  have hsum : Holds ((Pixel32.init.add left).add mid) fun c =>
      column dim src rows 0 c + column dim src rows 1 c :=
    ((holds_init.add hleft).add hmid).congr fun c => by rw [Nat.zero_add]
  have hfirst : #(near dim 0) = 2 := by
    rw [near, Nat.card_Ico]
    omega
  have hlast : #(near dim (dim - 1)) = 2 := by
    rw [near, Nat.card_Ico]
    omega
  -- the left end
  obtain ⟨dst₁, hw, hdone₁⟩ := hdone.write hi (show 0 < dim by omega)
    (h.toPixel_eq hr ends (hsum.congr fun c => by rw [h.total_eq, sum_near_first _ hd])
      (by rw [hfirst]; exact hends))
  obtain ⟨s, hloop, hinv⟩ := forRange_inv (smoothBody dim src rows i inner)
    (fun j s => SmoothInv dim src rows i j s) (show 1 ≤ dim - 1 by omega)
    (show SmoothInv dim src rows i 1 ⟨(Pixel32.init.add left).add mid, left, mid, dst₁⟩ from
      ⟨hleft, hmid, hsum, hdone₁⟩)
    fun j s h1 h2 hinv => smoothBody_spec hs h hr hi hinner h1 h2 hinv
  -- the right end
  obtain ⟨dst₂, hw₂, hdone₂⟩ := hinv.done.write hi (show dim - 1 < dim by omega)
    (h.toPixel_eq hr ends (hinv.sum.congr fun c => by
      rw [h.total_eq, sum_near_last _ hd, show dim - 1 - 1 = dim - 2 by omega])
      (by rw [hlast]; exact hends))
  refine ⟨dst₂, ?_, ?_⟩
  · simp only [smoothRow, hcols, Option.bind_eq_bind, Option.bind_some, hw, hloop, hw₂]
  · rw [show dim - 1 + 1 = dim by omega] at hdone₂
    rwa [← ridx_next_row]

theorem rowsOf_first (hd : 2 ≤ dim) : RowsOf dim 0 [0, 1] where
  lt r hr := by
    simp only [List.mem_cons, List.not_mem_nil, or_false] at hr
    omega
  sum f := by
    rw [sum_near_first f hd]
    simp

theorem rowsOf_inner (h1 : 1 ≤ i) (h2 : i < dim - 1) : RowsOf dim i [i - 1, i, i + 1] where
  lt r hr := by
    simp only [List.mem_cons, List.not_mem_nil, or_false] at hr
    omega
  sum f := by
    rw [sum_near_inner f h1 h2]
    simp [Nat.add_assoc]

theorem rowsOf_last (hd : 2 ≤ dim) : RowsOf dim (dim - 1) [dim - 2, dim - 1] where
  lt r hr := by
    simp only [List.mem_cons, List.not_mem_nil, or_false] at hr
    omega
  sum f := by
    rw [sum_near_last f hd]
    simp

theorem smooth_spec (hs : src.length = dim * dim) (hd : 2 ≤ dim) {dst : Image} (h : Done dim src 0 dst) :
    ∃ out, smooth dim src dst = some out ∧ Done dim src (dim * dim) out := by
  have h0 : Done dim src (ridx 0 0 dim) dst := by simpa [ridx] using h
  obtain ⟨dst₁, h1, hdone₁⟩ := smoothRow_spec hs hd (rowsOf_first hd) (by decide) (show 0 < dim by omega)
    (show (4 : UInt32).toNat = 2 * 2 from rfl) (show (6 : UInt32).toNat = 2 * 3 from rfl) h0
  obtain ⟨dst₂, h2, hdone₂⟩ := forRange_inv (fun i => smoothRow dim src [i - 1, i, i + 1] i 6 9)
    (fun i dst => Done dim src (ridx i 0 dim) dst) (show 1 ≤ dim - 1 by omega) hdone₁
    fun i dst hi1 hi2 hdone => smoothRow_spec hs hd (rowsOf_inner hi1 hi2) (Nat.le_refl 3)
      (show i < dim by omega) (show (6 : UInt32).toNat = 3 * 2 from rfl)
      (show (9 : UInt32).toNat = 3 * 3 from rfl) hdone
  obtain ⟨out, h3, hdone₃⟩ := smoothRow_spec hs hd (rowsOf_last hd) (by decide : 2 ≤ 3)
    (show dim - 1 < dim by omega) (show (4 : UInt32).toNat = 2 * 2 from rfl)
    (show (6 : UInt32).toNat = 2 * 3 from rfl) hdone₂
  refine ⟨out, ?_, ?_⟩
  · simp only [smooth, h1, Option.bind_eq_bind, Option.bind_some, h2, h3]
  · rw [show dim - 1 + 1 = dim by omega] at hdone₃
    simpa [ridx] using hdone₃

end Rows

/-- **The optimised kernel**: for every size of at least 2 and every image, `smooth` writes every pixel
exactly once and produces the image of `naive_smooth`, whatever the destination held. -/
theorem smooth_eq_naiveSmooth (dim : ℕ) (hd : 2 ≤ dim) (src dst : List Pixel) (hs : src.length = dim * dim)
    (ht : dst.length = dim * dim) : ∃ out out', smooth dim src ⟨dst, []⟩ = some out ∧
      naiveSmooth dim src ⟨dst, []⟩ = some out' ∧ out.writes.Perm (List.range (dim * dim)) ∧
      out.pixels = out'.pixels := by
  have h0 : Done dim src 0 ⟨dst, []⟩ := ⟨ht, rfl, fun m hm => absurd hm (Nat.not_lt_zero m)⟩
  obtain ⟨out, h1, h2⟩ := smooth_spec hs hd h0
  obtain ⟨out', h3, h4⟩ := naiveSmooth_spec hs h0
  refine ⟨out, out', h1, h3, by rw [h2.writes], List.ext_getElem? fun m => ?_⟩
  by_cases hm : m < dim * dim
  · rw [h2.pixels m hm, h4.pixels m hm]
  · rw [List.getElem?_eq_none (by rw [h2.length]; omega), List.getElem?_eq_none (by rw [h4.length]; omega)]

/-- A 2 by 2 image. -/
theorem smooth_eq_naiveSmooth_sample : ∃ out out',
    smooth 2 [⟨1, 2, 3⟩, ⟨5, 6, 7⟩, ⟨9, 10, 11⟩, ⟨65535, 14, 15⟩] ⟨List.replicate 4 ⟨0, 0, 0⟩, []⟩ = some out ∧
    naiveSmooth 2 [⟨1, 2, 3⟩, ⟨5, 6, 7⟩, ⟨9, 10, 11⟩, ⟨65535, 14, 15⟩] ⟨List.replicate 4 ⟨0, 0, 0⟩, []⟩ = some out' ∧
    out.writes.Perm (List.range (2 * 2)) ∧ out.pixels = out'.pixels :=
  smooth_eq_naiveSmooth 2 (by decide) _ _ rfl rfl

end Csapp.Perf
