import Csapp.Lib.Loop
import Mathlib.Order.Lattice

/-!
# Perf.Kernels — the smoothing kernels of `kernels.c`

An image is the list of its pixels, row after row.  Reads and writes are checked against its size, `none`
is an access outside; a destination also records the indices that are written.  Indices and the `int`
sums of `avg` are natural numbers; the sums of `smooth` are `unsigned`.

`smooth` treats the first row, each inner row and the last row by the same statements, for the source
rows next to it and its own divisors: `smoothRow` is that text once.
-/

namespace Csapp.Perf

open Csapp.Lib

/-! ## Pixels -/

structure Rgb (α : Type*) where
  red : α
  green : α
  blue : α
  deriving DecidableEq

namespace Rgb

variable {α β γ : Type*}

def map (f : α → β) (x : Rgb α) : Rgb β := ⟨f x.red, f x.green, f x.blue⟩

def zipWith (f : α → β → γ) (x : Rgb α) (y : Rgb β) : Rgb γ :=
  ⟨f x.red y.red, f x.green y.green, f x.blue y.blue⟩

end Rgb

/-- `pixel`. -/
abbrev Pixel := Rgb UInt16

/-- `pixel32_t`. -/
abbrev Pixel32 := Rgb UInt32

/-- `pixel_sum`. -/
structure PixelSum extends Rgb ℕ where
  num : ℕ

/-- `RIDX(i, j, n)`. -/
def ridx (i j n : ℕ) : ℕ := i * n + j

/-- A destination, and the indices that have been written, in order. -/
structure Image where
  pixels : List Pixel
  writes : List ℕ

/-- `dst[k] = p`. -/
def Image.write (dst : Image) (k : ℕ) (p : Pixel) : Option Image :=
  if k < dst.pixels.length then some ⟨dst.pixels.set k p, dst.writes ++ [k]⟩ else none

/-! ## naive_smooth -/

def initializePixelSum : PixelSum := ⟨⟨0, 0, 0⟩, 0⟩

def accumulateSum (sum : PixelSum) (p : Pixel) : PixelSum :=
  ⟨Rgb.zipWith (fun s c => s + c.toNat) sum.toRgb p, sum.num + 1⟩

def assignSumToPixel (sum : PixelSum) : Pixel := sum.toRgb.map fun s => UInt16.ofNat (s / sum.num)

/-- The inner loop of `avg`, over the columns next to `j`. -/
def avgRow (dim j : ℕ) (src : List Pixel) (ii : ℕ) (sum : PixelSum) : Option PixelSum :=
  forRange (j - 1) (min (j + 1) (dim - 1) + 1) (fun jj sum => do
    let p ← src[ridx ii jj dim]?
    return accumulateSum sum p) sum

def avg (dim i j : ℕ) (src : List Pixel) : Option Pixel := do
  let sum ← forRange (i - 1) (min (i + 1) (dim - 1) + 1) (avgRow dim j src) initializePixelSum
  return assignSumToPixel sum

def naiveSmooth (dim : ℕ) (src : List Pixel) (dst : Image) : Option Image :=
  forRange 0 dim (fun i dst => forRange 0 dim (fun j dst => do
    let p ← avg dim i j src
    dst.write (ridx i j dim) p) dst) dst

/-! ## smooth -/

namespace Pixel32

def init : Pixel32 := ⟨0, 0, 0⟩

def addPixel (self : Pixel32) (other : Pixel) : Pixel32 := Rgb.zipWith (fun s c => s + c.toUInt32) self other

def add (self other : Pixel32) : Pixel32 := Rgb.zipWith (· + ·) self other

def sub (self other : Pixel32) : Pixel32 := Rgb.zipWith (· - ·) self other

def toPixel (self : Pixel32) (scale : UInt32) : Pixel := self.map fun s => (s / scale).toUInt16

end Pixel32

/-- `left` and `mid`, from the first two columns of the source rows. -/
def firstColumns (dim : ℕ) (src : List Pixel) : List ℕ → Pixel32 → Pixel32 → Option (Pixel32 × Pixel32)
  | [], left, mid => some (left, mid)
  | r :: rows, left, mid => do
    let p ← src[ridx r 0 dim]?
    let q ← src[ridx r 1 dim]?
    firstColumns dim src rows (left.addPixel p) (mid.addPixel q)

/-- `right`, from column `j` of the source rows. -/
def nextColumn (dim : ℕ) (src : List Pixel) (j : ℕ) : List ℕ → Pixel32 → Option Pixel32
  | [], right => some right
  | r :: rows, right => do
    let p ← src[ridx r j dim]?
    nextColumn dim src j rows (right.addPixel p)

/-- The variables of `smooth`. -/
structure SmoothState where
  sum : Pixel32
  left : Pixel32
  mid : Pixel32
  dst : Image

/-- A round of the loop along a row: pixel `(i, j)` from the columns `j - 1`, `j` and `j + 1`. -/
def smoothBody (dim : ℕ) (src : List Pixel) (rows : List ℕ) (i : ℕ) (scale : UInt32) (j : ℕ)
    (s : SmoothState) : Option SmoothState := do
  let right ← nextColumn dim src (j + 1) rows Pixel32.init
  let sum := s.sum.add right
  let dst ← s.dst.write (ridx i j dim) (sum.toPixel scale)
  return ⟨sum.sub s.left, s.mid, right, dst⟩

/-- Row `i` from the source rows `rows`, with one divisor for its two ends and one for the rest. -/
def smoothRow (dim : ℕ) (src : List Pixel) (rows : List ℕ) (i : ℕ) (ends inner : UInt32) (dst : Image) :
    Option Image := do
  let (left, mid) ← firstColumns dim src rows Pixel32.init Pixel32.init
  let sum := (Pixel32.init.add left).add mid
  let dst ← dst.write (ridx i 0 dim) (sum.toPixel ends)
  let s ← forRange 1 (dim - 1) (smoothBody dim src rows i inner) ⟨sum, left, mid, dst⟩
  s.dst.write (ridx i (dim - 1) dim) (s.sum.toPixel ends)

def smooth (dim : ℕ) (src : List Pixel) (dst : Image) : Option Image := do
  let dst ← smoothRow dim src [0, 1] 0 4 6 dst
  let dst ← forRange 1 (dim - 1) (fun i => smoothRow dim src [i - 1, i, i + 1] i 6 9) dst
  smoothRow dim src [dim - 2, dim - 1] (dim - 1) 4 6 dst

end Csapp.Perf
