import Csapp.Lib.Loop
import Mathlib.Algebra.Ring.Int.Defs
import Mathlib.Algebra.Ring.Nat

/-!
# Bignum.PyLong — the integer objects of `cpython_int.c`

`PyLongObject` with its sign-and-length field `ob_size` and its digit array.  Every function keeps the
name and the statement order of the source.

* Digits (`uint32_t`) are naturals; what C computes in `twodigits` (`uint64_t`) is reduced modulo
  `2 ^ 64`, a cast to `digit` modulo `2 ^ 32`; `stwodigits` values are integers.
* Lengths are naturals: an array has fewer than `2 ^ 61` digits.
* Allocation succeeds.  Reference counts and type pointers do not influence results and are left out.
* `none` is a failed `assert` or an access outside the digit array.
-/

namespace Csapp.Bignum

open Csapp.Lib

/-- `ob_size` (length and sign) and `ob_digit`; the list has the digits the object was allocated with. -/
structure PyLongObject where
  obSize : ℤ
  obDigit : List ℕ
  deriving DecidableEq

/-! ## Machine arithmetic -/

/-- `PYLONG_BITS_IN_DIGIT`. -/
abbrev bitsInDigit : ℕ := 30

/-- `BASE_MASK`. -/
abbrev baseMask : ℕ := 0x3FFFFFFF

/-- `BASE`. -/
abbrev base : ℕ := 2 ^ 30

/-- A value computed in `uint64_t`. -/
def u64 (x : ℕ) : ℕ := x % 2 ^ 64

/-- The cast `(digit)x`. -/
def toDigit (x : ℕ) : ℕ := x % 2 ^ 32

/-- The cast of a signed value to `uint64_t`. -/
def toU64 (v : ℤ) : ℕ := (v % 2 ^ 64).toNat

/-- The cast of a `uint64_t` to `int64_t`. -/
def toS64 (u : ℕ) : ℤ := if u < 2 ^ 63 then u else u - 2 ^ 64

/-! ## Objects -/

/-- `Py_ABS(Py_SIZE(op))`. -/
def PyLongObject.absSize (op : PyLongObject) : ℕ := op.obSize.natAbs

/-- `op->ob_digit[i]`. -/
def PyLongObject.digitAt (op : PyLongObject) (i : ℕ) : Option ℕ := op.obDigit[i]?

/-- `op->ob_digit[i] = d`. -/
def PyLongObject.setDigit (op : PyLongObject) (i d : ℕ) : Option PyLongObject :=
  if i < op.obDigit.length then some { op with obDigit := op.obDigit.set i d } else none

def pylongAlloc (size : ℕ) : PyLongObject := ⟨size, List.replicate size 0⟩

/-- The loop of `pylong_clamp`: drop zeros from the top. -/
def clampLoop (op : PyLongObject) : ℕ → Option ℕ
  | 0 => some 0
  | n + 1 => do
    let d ← op.digitAt n
    if d = 0 then clampLoop op n else return n + 1

def pylongClamp (op : PyLongObject) : Option PyLongObject := do
  let n ← clampLoop op op.absSize
  return { op with obSize := if n = 0 then 0 else if op.obSize < 0 then -(n : ℤ) else n }

/-- One round of the digit loop of `pylong_verify_invariants`. -/
def verifyBody (op : PyLongObject) (i : ℕ) (ok : Bool) : Option Bool := do
  let d ← op.digitAt i
  return ok && decide (d ≤ baseMask)

/-- `pylong_verify_invariants`; `true` is 1. -/
def pylongVerifyInvariants (op : PyLongObject) : Option Bool :=
  if op.obSize = 0 then some true
  else do
    let n := op.absSize
    let top ← op.digitAt (n - 1)
    if top = 0 then return false
    else forRange 0 n (verifyBody op) true

/-! ## Conversions -/

/-- Loop state of `pylong_from_int64`. -/
structure FromState where
  count : ℕ
  uval : ℕ
  op : PyLongObject

def fromInt64Body (s : FromState) : Option FromState := do
  let op ← s.op.setDigit s.count (toDigit (s.uval &&& baseMask))
  return ⟨s.count + 1, s.uval >>> bitsInDigit, op⟩

/-- `pylong_from_int64`; each round shifts a 64-bit value, so 64 rounds are enough. -/
def pylongFromInt64 (val : ℤ) : Option PyLongObject :=
  if val = 0 then some (pylongAlloc 0)
  else do
    let uval := if val < 0 then u64 (2 ^ 64 - toU64 val) else toU64 val
    let s ← whileLoop (fun s => decide (0 < s.uval)) fromInt64Body 64 ⟨0, uval, pylongAlloc 3⟩
    pylongClamp { s.op with obSize := if val < 0 then -(s.count : ℤ) else s.count }

/-- The shift register of `pylong_to_int64`: digits `i - 1, …, 0`. -/
def toInt64Loop (op : PyLongObject) : ℕ → ℕ → Option ℕ
  | 0, uval => some uval
  | i + 1, uval => do
    let d ← op.digitAt i
    toInt64Loop op i (u64 (uval <<< bitsInDigit) ||| d)

/-- `pylong_to_int64`: the return value and `*out`, which holds `out` before the call. -/
def pylongToInt64 (op : PyLongObject) (out : ℤ) : Option (ℤ × ℤ) :=
  if op.obSize = 0 then some (0, 0)
  else
    let n := op.absSize
    if n > 3 then some (-1, out)
    else do
      let uval ← toInt64Loop op n 0
      if op.obSize > 0 then
        if uval > 2 ^ 63 - 1 then return (-1, out) else return (0, toS64 uval)
      else
        let maxNeg := 2 ^ 63
        if uval > maxNeg then return (-1, out)
        else if uval = maxNeg then return (0, -2 ^ 63)
        else return (0, -toS64 uval)

/-! ## Comparison -/

/-- The loop of `pylong_compare_magnitude`, from digit `i - 1` down. -/
def compareLoop (a b : PyLongObject) : ℕ → Option ℤ
  | 0 => some 0
  | i + 1 => do
    let x ← a.digitAt i
    let y ← b.digitAt i
    if x > y then return 1 else if x < y then return -1 else compareLoop a b i

def pylongCompareMagnitude (a b : PyLongObject) : Option ℤ :=
  let na := a.absSize
  let nb := b.absSize
  if na > nb then some 1 else if na < nb then some (-1) else compareLoop a b na

/-- `Py_SIZE(op) > 0 ? 1 : (Py_SIZE(op) < 0 ? -1 : 0)`. -/
def signOf (op : PyLongObject) : ℤ := if op.obSize > 0 then 1 else if op.obSize < 0 then -1 else 0

def pylongCompare (a b : PyLongObject) : Option ℤ :=
  if signOf a > signOf b then some 1
  else if signOf a < signOf b then some (-1)
  else if signOf a = 0 then some 0
  else if signOf a > 0 then pylongCompareMagnitude a b
  else pylongCompareMagnitude b a

/-! ## Magnitudes -/

/-- Loop state of `pylong_add_magnitude`. -/
structure AddState where
  carry : ℕ
  z : PyLongObject

/-- `z->ob_digit[i] = sum & BASE_MASK; carry = sum >> 30`. -/
def AddState.put (s : AddState) (i sum : ℕ) : Option AddState := do
  let z ← s.z.setDigit i (toDigit (sum &&& baseMask))
  return ⟨sum >>> bitsInDigit, z⟩

/-- First loop: both have digit `i`. -/
def addBoth (a b : PyLongObject) (i : ℕ) (s : AddState) : Option AddState := do
  let x ← a.digitAt i
  let y ← b.digitAt i
  s.put i (u64 (x + y + s.carry))

/-- Second loop: only `a` has digit `i`. -/
def addRest (a : PyLongObject) (i : ℕ) (s : AddState) : Option AddState := do
  let x ← a.digitAt i
  s.put i (u64 (x + s.carry))

/-- `pylong_add_magnitude` past its first test. -/
def addMagnitude (a b : PyLongObject) : Option PyLongObject := do
  let na := a.absSize
  let nb := b.absSize
  let s ← forRange 0 nb (addBoth a b) ⟨0, pylongAlloc (na + 1)⟩
  let s ← forRange nb na (addRest a) s
  if s.carry > 0 then do
    let z ← s.z.setDigit na (toDigit s.carry)
    pylongClamp { z with obSize := (na + 1 : ℕ) }
  else pylongClamp { s.z with obSize := na }

/-- `pylong_add_magnitude`; the recursive call has the longer argument first. -/
def pylongAddMagnitude (a b : PyLongObject) : Option PyLongObject :=
  if a.absSize < b.absSize then addMagnitude b a else addMagnitude a b

/-- Loop state of `pylong_sub_magnitude`. -/
structure SubState where
  borrow : ℤ
  z : PyLongObject

/-- `if (diff < 0) { diff += BASE; borrow = 1; } else borrow = 0; z->ob_digit[i] = diff`.  `BASE` is
unsigned, so the sum is computed in `uint64_t`. -/
def SubState.put (s : SubState) (i : ℕ) (diff : ℤ) : Option SubState := do
  let diff' := if diff < 0 then toS64 (u64 (toU64 diff + base)) else diff
  let z ← s.z.setDigit i (toDigit (toU64 diff'))
  return ⟨if diff < 0 then 1 else 0, z⟩

/-- First loop: both have digit `i`. -/
def subBoth (a b : PyLongObject) (i : ℕ) (s : SubState) : Option SubState := do
  let x ← a.digitAt i
  let y ← b.digitAt i
  s.put i ((x : ℤ) - y - s.borrow)

/-- Second loop: only `a` has digit `i`. -/
def subRest (a : PyLongObject) (i : ℕ) (s : SubState) : Option SubState := do
  let x ← a.digitAt i
  s.put i ((x : ℤ) - s.borrow)

def pylongSubMagnitude (a b : PyLongObject) : Option PyLongObject := do
  let na := a.absSize
  let nb := b.absSize
  let cmp ← pylongCompareMagnitude a b
  if cmp < 0 then none
  else do
    let s ← forRange 0 nb (subBoth a b) ⟨0, pylongAlloc na⟩
    let s ← forRange nb na (subRest a) s
    if s.borrow ≠ 0 then none else pylongClamp { s.z with obSize := na }

/-! ## Signed arithmetic -/

/-- One digit of a `memcpy`. -/
def copyBody (a : PyLongObject) (i : ℕ) (z : PyLongObject) : Option PyLongObject := do
  let d ← a.digitAt i
  z.setDigit i d

/-- `memcpy` of the first `n` digits of `a` into a new object, which gets size `size`. -/
def copyDigits (a : PyLongObject) (n : ℕ) (size : ℤ) : Option PyLongObject := do
  let z ← forRange 0 n (copyBody a) (pylongAlloc n)
  return { z with obSize := size }

def pylongNeg (a : PyLongObject) : Option PyLongObject := copyDigits a a.absSize (-a.obSize)

/-- `if (neg) Py_SIZE(z) = -Py_SIZE(z)`. -/
def negIf (neg : Bool) (z : PyLongObject) : PyLongObject :=
  if neg then { z with obSize := -z.obSize } else z

def pylongAdd (a b : PyLongObject) : Option PyLongObject :=
  if a.obSize = 0 then copyDigits b b.absSize b.obSize
  else if b.obSize = 0 then copyDigits a a.absSize a.obSize
  else if (a.obSize > 0 ∧ b.obSize > 0) ∨ (a.obSize < 0 ∧ b.obSize < 0) then do
    let z ← pylongAddMagnitude a b
    return negIf (decide (a.obSize < 0)) z
  else do
    let cmp ← pylongCompareMagnitude a b
    if cmp = 0 then return pylongAlloc 0
    else if cmp > 0 then
      let z ← pylongSubMagnitude a b
      return negIf (decide (a.obSize < 0)) z
    else
      let z ← pylongSubMagnitude b a
      return negIf (decide (b.obSize < 0)) z

def pylongSub (a b : PyLongObject) : Option PyLongObject := do
  let negB ← pylongNeg b
  pylongAdd a negB

def pylongInvert (a : PyLongObject) : Option PyLongObject := do
  let one ← pylongFromInt64 1
  let plusOne ← pylongAdd a one
  pylongNeg plusOne

/-! ## Multiplication -/

/-- State at the head of the inner loop of `pylong_mul`. -/
structure MulState where
  i : ℕ
  j : ℕ
  carry : ℕ
  z : PyLongObject

/-- `j < nb || carry > 0`. -/
def mulCond (b : PyLongObject) (s : MulState) : Bool := decide (s.j < b.absSize ∨ 0 < s.carry)

/-- The exact value of `prod` in one round, before it is reduced modulo `2 ^ 64`. -/
def mulProd (a b : PyLongObject) (s : MulState) : Option ℕ := do
  let ai ← a.digitAt s.i
  let zd ← s.z.digitAt (s.i + s.j)
  if s.j < b.absSize then do
    let bj ← b.digitAt s.j
    return zd + s.carry + ai * bj
  else return zd + s.carry

/-- One round of the inner loop. -/
def mulBody (a b : PyLongObject) (s : MulState) : Option MulState := do
  let exact' ← mulProd a b s
  let prod := u64 exact'
  let z ← s.z.setDigit (s.i + s.j) (toDigit (prod &&& baseMask))
  return { s with j := s.j + 1, carry := prod >>> bitsInDigit, z := z }

/-- The inner loop for digit `i` of `a`; after `na + nb` rounds the next one would leave the array. -/
def mulRow (a b : PyLongObject) (i : ℕ) (z : PyLongObject) : Option PyLongObject :=
  (whileLoop (mulCond b) (mulBody a b) (a.absSize + b.absSize + 1) ⟨i, 0, 0, z⟩).map MulState.z

def pylongMul (a b : PyLongObject) : Option PyLongObject :=
  if a.obSize = 0 ∨ b.obSize = 0 then some (pylongAlloc 0)
  else do
    let na := a.absSize
    let nb := b.absSize
    let z ← forRange 0 na (mulRow a b) (pylongAlloc (na + nb))
    let neg := xor (decide (a.obSize < 0)) (decide (b.obSize < 0))
    pylongClamp { z with obSize := if neg then -((na + nb : ℕ) : ℤ) else (na + nb : ℕ) }

/-! ## Bitwise and -/

/-- `z->ob_digit[i] = a->ob_digit[i] & b->ob_digit[i]`. -/
def andBody (a b : PyLongObject) (i : ℕ) (z : PyLongObject) : Option PyLongObject := do
  let x ← a.digitAt i
  let y ← b.digitAt i
  z.setDigit i (x &&& y)

/-- `pylong_and`; the outer `none` is a fault, the inner one the `NULL` for negative arguments. -/
def pylongAnd (a b : PyLongObject) : Option (Option PyLongObject) :=
  if a.obSize ≥ 0 ∧ b.obSize ≥ 0 then do
    let n := min a.absSize b.absSize
    let z ← forRange 0 n (andBody a b) (pylongAlloc n)
    let z ← pylongClamp { z with obSize := n }
    return some z
  else some none

end Csapp.Bignum
