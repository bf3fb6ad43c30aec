import Csapp.Lib.Slice

/-!
# Lib.File — a regular file with a position

`read` fills a buffer of zeros with what is left of the file, as far as it goes, and `seek` moves the position
by an offset from where it is: behind the end of the file, too, but not in front of its start.
-/

namespace Csapp.Lib

structure File where
  content : List UInt8
  pos : ℕ

inductive FileError
  | eof
  | invalidOffset
  deriving DecidableEq

namespace File

variable {f : File} {s t : List UInt8} {n : ℕ}

/-- What is left of the file. -/
def rest (f : File) : List UInt8 := f.content.drop f.pos

def moved (f : File) (pos : ℕ) : File := { f with pos := pos }

/-- A read into a new buffer of `n` bytes. -/
def read (f : File) (n : ℕ) : Except FileError (List UInt8 × File) :=
  let got := f.rest.take n
  if n ≠ 0 ∧ got = [] then .error .eof
  else .ok (readInto got (List.replicate n 0), f.moved (f.pos + got.length))

def seek (f : File) (offset : ℤ) : Except FileError File :=
  if (f.pos : ℤ) + offset < 0 then .error .invalidOffset else .ok (f.moved (f.pos + offset).toNat)

theorem rest_moved (h : f.rest = s ++ t) : (f.moved (f.pos + s.length)).rest = t := by
  show f.content.drop (f.pos + s.length) = t
  rw [← List.drop_drop, ← rest, h, List.drop_left]

/-- The bytes that stand at the position are read. -/
theorem read_full (h : f.rest = s ++ t) (hs : s.length = n) (hn : n ≠ 0) :
    f.read n = .ok (s, f.moved (f.pos + n)) := by
  have htake : f.rest.take n = s := by rw [h, ← hs, List.take_left]
  have hne : s ≠ [] := fun heq => hn (by rw [← hs, heq, List.length_nil])
  have hbuf : readInto s (List.replicate n 0) = s := readInto_full (by rw [List.length_replicate, hs])
  simp only [read, htake, hbuf, hs]
  exact if_neg fun h => hne h.2

/-- Where something is left, a read gets the whole of the buffer or all that is left. -/
theorem read_rest (ht : f.rest ≠ []) (n : ℕ) :
    ∃ b : List UInt8, b.length = n ∧ f.read n = .ok (b, f.moved (f.pos + min n f.rest.length)) := by
  refine ⟨readInto (f.rest.take n) (List.replicate n 0), ?_, ?_⟩
  · rw [length_readInto, List.length_replicate]
    rw [List.length_replicate, List.length_take]
    exact Nat.min_le_left _ _
  · simp only [read, List.length_take]
    refine if_neg ?_
    rintro ⟨hn, hnil⟩
    exact (List.take_eq_nil_iff.mp hnil).elim hn ht

theorem read_eof (h : f.rest = []) (hn : n ≠ 0) : f.read n = .error .eof := by
  simp only [read, h, List.take_nil]
  exact if_pos ⟨hn, trivial⟩

theorem seek_eq {offset : ℤ} {p : ℕ} (h : (f.pos : ℤ) + offset = p) : f.seek offset = .ok (f.moved p) := by
  rw [seek, if_neg (by omega), h, Int.toNat_natCast]

end File

end Csapp.Lib
