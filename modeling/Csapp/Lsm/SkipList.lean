import Csapp.Lib.Loop
import Mathlib.Data.Int.Notation

/-!
# Lsm.SkipList — the memtable of `skiplist.go`

Nodes live in a store that only grows: a reference is an index into it, `Head` is node 0, and a node
that is unlinked stays as garbage.  Every function keeps the name and the statement order of the source.

* `none` is a panic (an index out of range, a `nil` dereference) or a chain that does not end.
* The level that `randomLevel` draws is an argument of `Insert` and `Update`; `randomLevel` itself is a
  function of the coins.
* A `nil` and an empty slice are the same byte string.  The list keeps the caller's slices; they are
  taken not to change afterwards.
-/

namespace Csapp.Lsm

open Csapp.Lib

/-! ## Byte strings -/

abbrev Byte := Fin 256

abbrev Bytes := List Byte

/-- `bytes.Compare`. -/
def bytesCompare : Bytes → Bytes → ℤ
  | [], [] => 0
  | [], _ :: _ => -1
  | _ :: _, [] => 1
  | a :: as, b :: bs => if a < b then -1 else if b < a then 1 else bytesCompare as bs

/-- An error value: the format and its arguments. -/
structure GoError where
  text : String
  args : List Bytes
  deriving DecidableEq

/-! ## The data structure -/

/-- The constant of the package. -/
abbrev MaxLevel : ℕ := 16

structure SkipListNode where
  key : Bytes
  value : Bytes
  forwards : List (Option ℕ)
  deriving DecidableEq

structure SkipList where
  nodes : List SkipListNode
  level : ℕ
  maxLevel : ℕ
  deriving DecidableEq

/-- `sl.Head`. -/
abbrev head : ℕ := 0

def newSkipList : SkipList := ⟨[⟨[], [], List.replicate MaxLevel none⟩], 0, MaxLevel⟩

/-- The loop of `randomLevel`, with `n` levels left below `MaxLevel`; a coin is `Float64() < Probability`.
Returns the level and the number of coins drawn. -/
def randomLevelLoop (coins : ℕ → Bool) : ℕ → ℕ → ℕ → ℕ × ℕ
  | 0, level, drawn => (level, drawn + 1)
  | n + 1, level, drawn =>
    if coins drawn then randomLevelLoop coins n (level + 1) (drawn + 1) else (level, drawn + 1)

def SkipList.randomLevel (sl : SkipList) (coins : ℕ → Bool) : ℕ :=
  (randomLevelLoop coins (sl.maxLevel - 1) 1 0).1

/-- `x.Forwards[i]`. -/
def SkipList.forwards (sl : SkipList) (x i : ℕ) : Option (Option ℕ) := do
  let node ← sl.nodes[x]?
  node.forwards[i]?

/-- `x.Forwards[i] = p`. -/
def SkipList.setForwards (sl : SkipList) (x i : ℕ) (p : Option ℕ) : Option SkipList := do
  let node ← sl.nodes[x]?
  if i < node.forwards.length then
    return { sl with nodes := sl.nodes.set x { node with forwards := node.forwards.set i p } }
  else none

/-- `a[i] = p` for the array `update`. -/
def setUpdate (update : List (Option ℕ)) (i x : ℕ) : Option (List (Option ℕ)) :=
  if i < update.length then some (update.set i (some x)) else none

/-- `update[i]`, which is dereferenced next. -/
def getUpdate (update : List (Option ℕ)) (i : ℕ) : Option ℕ := do
  let x ← update[i]?
  x

/-! ## Descent -/

/-- The inner loop: step forward on level `i` while the next key is smaller. -/
def SkipList.advance (sl : SkipList) (key : Bytes) (i : ℕ) : ℕ → ℕ → Option ℕ
  | 0, _ => none
  | fuel + 1, current => do
    let next ← sl.forwards current i
    match next with
    | none => return current
    | some y =>
      let node ← sl.nodes[y]?
      if bytesCompare node.key key < 0 then sl.advance key i fuel y else return current

/-- The descent of `Search` and `Update`, over levels `i - 1, …, 0`.  A chain without a cycle has fewer
steps than there are nodes. -/
def SkipList.descend (sl : SkipList) (key : Bytes) : ℕ → ℕ → Option ℕ
  | 0, current => some current
  | i + 1, current => do
    let current ← sl.advance key i (sl.nodes.length + 1) current
    sl.descend key i current

/-- The descent of `Insert` and `Delete`, which records the predecessor of each level in `update`. -/
def SkipList.descendUpdate (sl : SkipList) (key : Bytes) :
    ℕ → ℕ → List (Option ℕ) → Option (ℕ × List (Option ℕ))
  | 0, current, update => some (current, update)
  | i + 1, current, update => do
    let current ← sl.advance key i (sl.nodes.length + 1) current
    let update ← setUpdate update i current
    sl.descendUpdate key i current update

/-! ## Operations -/

/-- One round of the linking loop of `Insert`. -/
def linkBody (update : List (Option ℕ)) (new i : ℕ) (sl : SkipList) : Option SkipList := do
  let u ← getUpdate update i
  let p ← sl.forwards u i
  let sl ← sl.setForwards new i p
  sl.setForwards u i (some new)

/-- `Head` is the predecessor on the levels above `sl.Level`. -/
def SkipList.fillUpdate (sl : SkipList) (level : ℕ) (update : List (Option ℕ)) :
    Option (List (Option ℕ)) :=
  if level > sl.level then forRange sl.level level (fun i update => setUpdate update i head) update
  else some update

def SkipList.insert (sl : SkipList) (key value : Bytes) (level : ℕ) : Option SkipList := do
  let (_, update) ← sl.descendUpdate key sl.level head (List.replicate sl.maxLevel none)
  let update ← sl.fillUpdate level update
  let sl := if level > sl.level then { sl with level := level } else sl
  let new := sl.nodes.length
  let sl := { sl with nodes := sl.nodes ++ [⟨key, value, List.replicate level none⟩] }
  forRange 0 level (linkBody update new) sl

/-- `Search`: the node, or `nil`. -/
def SkipList.search (sl : SkipList) (key : Bytes) : Option (Option ℕ) := do
  let current ← sl.descend key sl.level head
  let possibleMatch ← sl.forwards current 0
  match possibleMatch with
  | none => return none
  | some x =>
    let node ← sl.nodes[x]?
    if bytesCompare node.key key ≥ 0 then return some x else return none

/-- The unlinking loop of `Delete` over levels `i, i + 1, …`, which stops where the predecessor does not
point to `x`. -/
def unlinkLoop (update : List (Option ℕ)) (x : ℕ) : ℕ → ℕ → SkipList → Option SkipList
  | 0, _, sl => some sl
  | n + 1, i, sl => do
    let u ← getUpdate update i
    let p ← sl.forwards u i
    if p ≠ some x then return sl
    else do
      let q ← sl.forwards x i
      let sl ← sl.setForwards u i q
      unlinkLoop update x n (i + 1) sl

/-- The last loop of `Delete`: the level while the top chain is empty. -/
def shrinkLevel (sl : SkipList) : ℕ → Option ℕ
  | 0 => some 0
  | 1 => some 1
  | level + 2 => do
    let p ← sl.forwards head (level + 1)
    match p with
    | none => shrinkLevel sl (level + 1)
    | some _ => return level + 2

/-- `Delete`: the error, if any, and the list. -/
def SkipList.delete (sl : SkipList) (key : Bytes) : Option (Except GoError Unit × SkipList) := do
  let (current, update) ← sl.descendUpdate key sl.level head (List.replicate sl.maxLevel none)
  let current ← sl.forwards current 0
  match current with
  | none => return (.error ⟨"Key not found: %s", [key]⟩, sl)
  | some x =>
    let node ← sl.nodes[x]?
    if bytesCompare node.key key = 0 then
      let sl ← unlinkLoop update x sl.level 0 sl
      let level ← shrinkLevel sl sl.level
      return (.ok (), { sl with level := level })
    else return (.error ⟨"Key not found: %s", [key]⟩, sl)

/-- `current.Value = value`. -/
def SkipList.setValue (sl : SkipList) (x : ℕ) (value : Bytes) : Option SkipList := do
  let node ← sl.nodes[x]?
  return { sl with nodes := sl.nodes.set x { node with value := value } }

/-- `Update`; the level is used when it calls `Insert`. -/
def SkipList.update (sl : SkipList) (key value : Bytes) (level : ℕ) : Option SkipList := do
  let current ← sl.descend key sl.level head
  let current ← sl.forwards current 0
  match current with
  | none => sl.insert key value level
  | some x =>
    let node ← sl.nodes[x]?
    if bytesCompare node.key key = 0 then sl.setValue x value else sl.insert key value level

end Csapp.Lsm
