import Mathlib.Data.Nat.Bitwise
import Mathlib.Tactic.Ring
import Mathlib.Logic.Function.Basic

/-!
# Lib.Memory — byte memory with little-endian 32-bit words

`Mem` is a total map from addresses to bytes.  `load32` / `store32` read and write four bytes,
least significant first; a store truncates its value to 32 bits.  The lemmas say that a load sees
the last store to the same word, and no store to a disjoint one; `copyBytes` is a forward byte copy.
The second half is the arithmetic of bit fields below the third bit of a 32-bit word.
-/

namespace Csapp.Lib

/-- Byte-addressed memory. -/
abbrev Mem := ℕ → UInt8

/-- Write one byte. -/
def store8 (m : Mem) (a : ℕ) (b : UInt8) : Mem := fun x => if x = a then b else m x

/-- Read a 32-bit word, least significant byte first. -/
def load32 (m : Mem) (a : ℕ) : ℕ :=
  (m a).toNat + 2 ^ 8 * (m (a + 1)).toNat + 2 ^ 16 * (m (a + 2)).toNat + 2 ^ 24 * (m (a + 3)).toNat

/-- Write the low 32 bits of `v`, least significant byte first. -/
def store32 (m : Mem) (a v : ℕ) : Mem := fun x =>
  if x = a then UInt8.ofNat v
  else if x = a + 1 then UInt8.ofNat (v / 2 ^ 8)
  else if x = a + 2 then UInt8.ofNat (v / 2 ^ 16)
  else if x = a + 3 then UInt8.ofNat (v / 2 ^ 24)
  else m x

/-- Copy `n` bytes from `src` to `dst`, in increasing order. -/
def copyBytes (m : Mem) (dst src : ℕ) : ℕ → Mem
  | 0 => m
  | n + 1 => store8 (copyBytes m dst src n) (dst + n) (copyBytes m dst src n (src + n))

/-! ## Loads and stores -/

section Words

variable {m m' : Mem} {a b v x : ℕ}

theorem load32_lt (m : Mem) (a : ℕ) : load32 m a < 2 ^ 32 := by
  have h0 := (m a).toNat_lt
  have h1 := (m (a + 1)).toNat_lt
  have h2 := (m (a + 2)).toNat_lt
  have h3 := (m (a + 3)).toNat_lt
  unfold load32
  omega

/-- A word depends on its four bytes only. -/
theorem load32_congr (h : ∀ x, a ≤ x → x < a + 4 → m' x = m x) : load32 m' a = load32 m a := by
  unfold load32
  rw [h a (by omega) (by omega), h (a + 1) (by omega) (by omega), h (a + 2) (by omega) (by omega),
    h (a + 3) (by omega) (by omega)]

theorem store32_out (h : x < a ∨ a + 4 ≤ x) : store32 m a v x = m x := by
  unfold store32
  rw [if_neg (by omega), if_neg (by omega), if_neg (by omega), if_neg (by omega)]

theorem load32_store32_same (hv : v < 2 ^ 32) : load32 (store32 m a v) a = v := by
  have e : ∀ n, (UInt8.ofNat n).toNat = n % 256 := fun n => UInt8.toNat_ofNat'
  simp only [load32, store32, e, if_true, Nat.add_eq_left, Nat.add_right_inj, OfNat.ofNat_ne_zero,
    OfNat.ofNat_ne_one, OfNat.one_ne_ofNat, one_ne_zero, if_false]
  norm_num
  omega

theorem load32_store32_of_disjoint (h : a + 4 ≤ b ∨ b + 4 ≤ a) :
    load32 (store32 m a v) b = load32 m b :=
  load32_congr fun _ h1 h2 => store32_out (by omega)

theorem store8_self (m : Mem) (a : ℕ) (c : UInt8) : store8 m a c a = c := by simp [store8]

theorem store8_out {c : UInt8} (h : x ≠ a) : store8 m a c x = m x := by simp [store8, h]

/-- Bytes outside the destination are kept. -/
theorem copyBytes_out {dst src : ℕ} : ∀ {n : ℕ}, (x < dst ∨ dst + n ≤ x) →
    copyBytes m dst src n x = m x
  | 0, _ => rfl
  | n + 1, h => by
    rw [copyBytes, store8_out (by omega)]
    exact copyBytes_out (by omega)

/-- A copy between disjoint ranges reproduces the source. -/
theorem copyBytes_spec {dst src : ℕ} : ∀ {n : ℕ}, (dst + n ≤ src ∨ src + n ≤ dst) →
    ∀ i < n, copyBytes m dst src n (dst + i) = m (src + i)
  | 0, _, i, hi => by omega
  | n + 1, hd, i, hi => by
    rw [copyBytes]
    by_cases hin : i = n
    · subst hin
      rw [store8_self]
      exact copyBytes_out (by omega)
    · rw [store8_out (by omega)]
      exact copyBytes_spec (by omega) i (by omega)

end Words

/-! ## Bit fields

Masks and unions of a word `2 ^ k * c + y` whose low `k` bits are `y`. -/

section Bits

theorem or_low {k c y : ℕ} (hy : y < 2 ^ k) : 2 ^ k * c ||| y = 2 ^ k * c + y :=
  (Nat.two_pow_add_eq_or_of_lt hy c).symm

/-- A mask acts separately on the bits below `k` and on those from `k` up. -/
theorem and_split {k c y d z : ℕ} (hy : y < 2 ^ k) (hz : z < 2 ^ k) :
    (2 ^ k * c + y) &&& (2 ^ k * d + z) = 2 ^ k * (c &&& d) + (y &&& z) := by
  refine Nat.eq_of_testBit_eq fun i => ?_
  rw [Nat.testBit_and, Nat.testBit_two_pow_mul_add _ hy, Nat.testBit_two_pow_mul_add _ hz,
    Nat.testBit_two_pow_mul_add _ (lt_of_le_of_lt Nat.and_le_left hy), Nat.testBit_and,
    Nat.testBit_and]
  split_ifs <;> rfl

/-- Masking only the three low bits of a 32-bit word. -/
theorem and_flags {c y z : ℕ} (hc : 8 * c < 2 ^ 32) (hy : y < 8) (hz : z < 8) :
    (8 * c + y) &&& (0xFFFFFFF8 + z) = 8 * c + (y &&& z) := by
  have h := and_split (k := 3) (c := c) (d := 2 ^ 29 - 1) hy hz
  rw [Nat.and_two_pow_sub_one_eq_mod, Nat.mod_eq_of_lt (by omega)] at h
  exact h

/-- A mask below the third bit forgets the rest of the word. -/
theorem and_low {c y z : ℕ} (hy : y < 8) (hz : z < 8) : (8 * c + y) &&& z = y &&& z := by
  simpa using and_split (k := 3) (c := c) (d := 0) hy hz

end Bits

end Csapp.Lib
