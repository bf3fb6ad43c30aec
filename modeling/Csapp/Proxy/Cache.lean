import Csapp.Lib.CString
import Mathlib.Data.List.FinRange
import Mathlib.Logic.Function.Basic
import Mathlib.Order.Defs.LinearOrder
import Mathlib.Algebra.Order.Ring.Int

/-!
# Proxy.Cache — the object cache of the proxy

A fixed number of slots, each with the time of its last use.  `cache_put` overwrites the slot of its key, or
takes a slot that is not in use, or the one that has not been used for longest.  The arrays of a slot hold
a key of less than `MAXLINE` characters and a value of at most `MAX_OBJECT_SIZE` bytes.
-/

namespace Csapp.Proxy

open Csapp.Lib

def MAXLINE : ℕ := 8192

def MAX_CACHE_SIZE : ℕ := 1049000

def MAX_OBJECT_SIZE : ℕ := 102400

abbrev NUM_CACHE_OBJECTS : ℕ := MAX_CACHE_SIZE / MAX_OBJECT_SIZE

example : NUM_CACHE_OBJECTS = 10 := rfl

/-- A C string that fits into `key`. -/
def Key : Type := { s : Text // s.length < MAXLINE }

/-- The bytes of `value`, as many as `value_size` says. -/
def Value : Type := { v : List UInt8 // v.length ≤ MAX_OBJECT_SIZE }

instance : DecidableEq Key := inferInstanceAs (DecidableEq { s : Text // s.length < MAXLINE })

instance : DecidableEq Value := inferInstanceAs (DecidableEq { v : List UInt8 // v.length ≤ MAX_OBJECT_SIZE })

structure CacheObject where
  valid : Bool
  clk : ℤ
  key : Key
  value : Value

structure Cache where
  objs : Fin NUM_CACHE_OBJECTS → CacheObject

def cache_init : Cache := ⟨fun _ => ⟨false, 0, ⟨[], by decide⟩, ⟨[], by decide⟩⟩⟩

namespace Cache

variable {c : Cache} {i j : Fin NUM_CACHE_OBJECTS} {obj : CacheObject} {key : Key}

def setObj (c : Cache) (i : Fin NUM_CACHE_OBJECTS) (obj : CacheObject) : Cache :=
  ⟨Function.update c.objs i obj⟩

def cache_find (c : Cache) (key : Key) : Option (Fin NUM_CACHE_OBJECTS) :=
  (List.finRange NUM_CACHE_OBJECTS).find? fun i => (c.objs i).valid && (c.objs i).key = key

/-- `now` is what `get_clock` returns. -/
def cache_get (c : Cache) (key : Key) (now : ℤ) : Option Value × Cache :=
  match c.cache_find key with
  | none => (none, c)
  | some i => (some (c.objs i).value, c.setObj i { c.objs i with clk := now })

/-- The scan for a slot to evict. -/
def victim (c : Cache) : Fin NUM_CACHE_OBJECTS :=
  (List.finRange NUM_CACHE_OBJECTS).tail.foldl
    (fun victim i => if (c.objs i).clk < (c.objs victim).clk then i else victim) ⟨0, by decide⟩

def cache_put (c : Cache) (key : Key) (value : Value) (now : ℤ) : Cache :=
  match c.cache_find key with
  | some i => c.setObj i { c.objs i with value := value, clk := now }
  | none =>
    match (List.finRange NUM_CACHE_OBJECTS).find? fun i => !(c.objs i).valid with
    | some i => c.setObj i ⟨true, now, key, value⟩
    | none => c.setObj c.victim { c.objs c.victim with clk := now, key := key, value := value }

@[simp] theorem setObj_same : (c.setObj i obj).objs i = obj := Function.update_self ..

theorem setObj_of_ne (h : j ≠ i) : (c.setObj i obj).objs j = c.objs j := Function.update_of_ne h ..

theorem cache_find_some (h : c.cache_find key = some i) : (c.objs i).valid = true ∧ (c.objs i).key = key := by
  have hp := List.find?_some h
  rwa [Bool.and_eq_true, decide_eq_true_iff] at hp

theorem cache_find_eq_none :
    c.cache_find key = none ↔ ∀ i, (c.objs i).valid = true → (c.objs i).key ≠ key := by
  rw [cache_find, List.find?_eq_none]
  simp

/-- A slot in use is found by its key, if no other one has the key. -/
theorem cache_find_eq_some (hv : (c.objs i).valid = true) (hk : (c.objs i).key = key)
    (huniq : ∀ j, (c.objs j).valid = true → (c.objs j).key = key → j = i) : c.cache_find key = some i := by
  cases h : c.cache_find key with
  | none => exact absurd hk (cache_find_eq_none.mp h i hv)
  | some j =>
    obtain ⟨h1, h2⟩ := cache_find_some h
    rw [huniq j h1 h2]

/-- The scan ends at a slot with the smallest time. -/
theorem victim_min (c : Cache) (i : Fin NUM_CACHE_OBJECTS) : (c.objs c.victim).clk ≤ (c.objs i).clk := by
  have hscan : ∀ (l : List (Fin NUM_CACHE_OBJECTS)) (v : Fin NUM_CACHE_OBJECTS),
      let w := l.foldl (fun victim i => if (c.objs i).clk < (c.objs victim).clk then i else victim) v
      (c.objs w).clk ≤ (c.objs v).clk ∧ ∀ j ∈ l, (c.objs w).clk ≤ (c.objs j).clk := by
    intro l
    induction l with
    | nil => exact fun v => ⟨le_refl _, fun j hj => absurd hj List.not_mem_nil⟩
    | cons k l ih =>
      intro v
      rw [List.foldl_cons]
      by_cases hlt : (c.objs k).clk < (c.objs v).clk
      · rw [if_pos hlt]
        obtain ⟨h1, h2⟩ := ih k
        exact ⟨h1.trans (le_of_lt hlt), List.forall_mem_cons.mpr ⟨h1, h2⟩⟩
      · rw [if_neg hlt]
        obtain ⟨h1, h2⟩ := ih v
        exact ⟨h1, List.forall_mem_cons.mpr ⟨h1.trans (not_lt.mp hlt), h2⟩⟩
  obtain ⟨h1, h2⟩ := hscan (List.finRange NUM_CACHE_OBJECTS).tail ⟨0, by decide⟩
  have hall : List.finRange NUM_CACHE_OBJECTS = ⟨0, by decide⟩ :: (List.finRange NUM_CACHE_OBJECTS).tail := by
    decide
  have hi := List.mem_finRange i
  rw [hall] at hi
  rcases List.mem_cons.mp hi with rfl | hi
  · exact h1
  · exact h2 i hi

/-- What `cache_put` does to a cache that has at most one slot for a key. -/
theorem cache_put_cases (hd : ∀ i j, (c.objs i).valid = true → (c.objs j).valid = true →
    (c.objs i).key = (c.objs j).key → i = j) (key : Key) (value : Value) (now : ℤ) :
    ∃ i, c.cache_put key value now = c.setObj i ⟨true, now, key, value⟩ ∧
      ∀ j, j ≠ i → (c.objs j).valid = true → (c.objs j).key ≠ key := by
  rw [cache_put]
  cases hf : c.cache_find key with
  | some i =>
    obtain ⟨hi, rfl⟩ := cache_find_some hf
    refine ⟨i, congrArg (c.setObj i) ?_, fun j hj hv hk => hj (hd j i hv hi hk)⟩
    rw [← hi]
  | none =>
    have hno := cache_find_eq_none.mp hf
    dsimp only
    cases hfree : (List.finRange NUM_CACHE_OBJECTS).find? fun i => !(c.objs i).valid with
    | some i => exact ⟨i, rfl, fun j _ => hno j⟩
    | none =>
      have hfull : (c.objs c.victim).valid = true := by
        simpa using List.find?_eq_none.mp hfree c.victim (List.mem_finRange _)
      refine ⟨c.victim, congrArg (c.setObj c.victim) ?_, fun j _ => hno j⟩
      rw [← hfull]

end Cache

end Csapp.Proxy
