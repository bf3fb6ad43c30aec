import Csapp.Lib.Run
import Csapp.Lib.SortedMap
import Csapp.Lsm.Chains

/-!
# Store.LinkedList — the linked-list store of `02-linked-list-kv`

The nodes are the list from `entries` on; no node is shared, so that a pointer to a node is the list that
starts there.  `Put` compares the first node only with `bytes.Compare(..) > 0` and starts its loop at the
second one.  Its loop is `updateEntry` (`putLoop_pairs`), so `Put` is as well, unless the first node has
the key: then the key is there twice afterwards (`put_head_not_strict`).  The store therefore acts as a
map in exactly the runs that never put the key of the first node (`acts_as_map_iff`).

A `nil` and an empty slice are the same byte string.  The store keeps the caller's slices; they are taken
not to change afterwards.
-/

namespace Csapp.LinkedList

open Csapp.Lib
open Csapp.Lsm (Bytes bytesCompare bytesCompare_gt)

structure Node where
  key : Bytes
  value : Bytes
  deriving DecidableEq

structure LevelDb where
  entries : List Node
  deriving DecidableEq

def newNode (key val : Bytes) : LevelDb := ⟨[⟨key, val⟩]⟩

/-- The loop of `Get` from `curr` on. -/
def getLoop (key : Bytes) : List Node → Except String Bytes
  | [] => .error "Key not found"
  | curr :: next => if curr.key = key then .ok curr.value else getLoop key next

def LevelDb.get (ldb : LevelDb) (key : Bytes) : Except String Bytes := getLoop key ldb.entries

/-- The loop of `Has` from `curr` on. -/
def hasLoop (key : Bytes) : List Node → Bool
  | [] => false
  | curr :: next => if curr.key = key then true else hasLoop key next

def LevelDb.has (ldb : LevelDb) (key : Bytes) : Bool := hasLoop key ldb.entries

/-- The loop of `Put` from `curr` on, and the assignment to `prev.Next` behind it. -/
def putLoop (key value : Bytes) : List Node → List Node
  | [] => [⟨key, value⟩]
  | curr :: next =>
    if curr.key = key then { curr with value := value } :: next
    else if bytesCompare curr.key key > 0 then ⟨key, value⟩ :: curr :: next
    else curr :: putLoop key value next

def LevelDb.put (ldb : LevelDb) (key value : Bytes) : Except String Unit × LevelDb :=
  match ldb.entries with
  | [] => (.ok (), ⟨[⟨key, value⟩]⟩)
  | node :: next =>
    if bytesCompare node.key key > 0 then (.ok (), ⟨⟨key, value⟩ :: node :: next⟩)
    else (.ok (), ⟨node :: putLoop key value next⟩)

/-- The loop of `Delete` from `curr` on: the list that `prev.Next` is then. -/
def deleteLoop (key : Bytes) : List Node → Except String (List Node)
  | [] => .error "key not found"
  | curr :: next => if curr.key = key then .ok next else (deleteLoop key next).map (curr :: ·)

def LevelDb.delete (ldb : LevelDb) (key : Bytes) : Except String Unit × LevelDb :=
  match ldb.entries with
  | [] => (.error "list is empty", ldb)
  | node :: next =>
    if node.key = key then (.ok (), ⟨next⟩)
    else
      match deleteLoop key next with
      | .ok rest => (.ok (), ⟨node :: rest⟩)
      | .error err => (.error err, ldb)

/-! ## Runs -/

abbrev Call := MapCall Bytes Bytes

def LevelDb.call (ldb : LevelDb) : Call → Except String Unit × LevelDb
  | .put key value => ldb.put key value
  | .delete key => ldb.delete key

/-- A store and the map that the same calls make. -/
structure World where
  db : LevelDb
  map : Bytes → Option Bytes

/-- Any calls on the empty database or on `NewNode(key, val)`. -/
def storeSystem : System World Call (Except String Unit) where
  init w := w = ⟨⟨[]⟩, fun _ => none⟩ ∨
    ∃ key val, w = ⟨newNode key val, (MapCall.put key val).apply fun _ => none⟩
  legal _ _ := True
  exec w c := some ((w.db.call c).1, ⟨(w.db.call c).2, c.apply w.map⟩)

/-- The store is in order and answers as the map does; what `Delete` removes is gone. -/
structure ActsAs (ldb : LevelDb) (m : Bytes → Option Bytes) : Prop where
  sorted : StrictBy Node.key ldb.entries
  get : ∀ key, ldb.get key = match m key with
    | some value => .ok value
    | none => .error "Key not found"
  has : ∀ key, ldb.has key = (m key).isSome
  delete : ∀ key, (ldb.delete key).1.isOk = (m key).isSome
  removes : ∀ key, (ldb.delete key).1.isOk = true → key ∉ (ldb.delete key).2.entries.map Node.key

/-- The call does not put the key of the first node. -/
def Clear (ldb : LevelDb) : Call → Prop
  | .put key _ => ∀ node ∈ ldb.entries.head?, node.key ≠ key
  | .delete _ => True

/-! ## The loops -/

def Node.pair (node : Node) : Bytes × Bytes := (node.key, node.value)

def LevelDb.pairs (ldb : LevelDb) : List (Bytes × Bytes) := ldb.entries.map Node.pair

theorem strict_pairs {nodes : List Node} : StrictBy Prod.fst (nodes.map Node.pair) ↔ StrictBy Node.key nodes :=
  List.pairwise_map

theorem map_fst_pairs (nodes : List Node) : (nodes.map Node.pair).map Prod.fst = nodes.map Node.key := by
  rw [List.map_map]
  rfl

section Loops

variable {key value : Bytes} {nodes : List Node}

theorem getLoop_eq (key : Bytes) (nodes : List Node) : getLoop key nodes =
    match (nodes.map Node.pair).lookup key with
    | some value => .ok value
    | none => .error "Key not found" := by
  induction nodes with
  | nil => rfl
  | cons curr next ih =>
    rw [getLoop, List.map_cons, Node.pair, List.lookup_cons]
    split_ifs with h
    · rw [h, beq_self_eq_true]
    · rw [beq_false_of_ne (Ne.symm h), ih]

theorem hasLoop_eq (key : Bytes) (nodes : List Node) :
    hasLoop key nodes = ((nodes.map Node.pair).lookup key).isSome := by
  induction nodes with
  | nil => rfl
  | cons curr next ih =>
    rw [hasLoop, List.map_cons, Node.pair, List.lookup_cons]
    split_ifs with h
    · rw [h, beq_self_eq_true, Option.isSome_some]
    · rw [beq_false_of_ne (Ne.symm h), ih]

/-- The loop of `Put` overwrites or inserts in order. -/
theorem putLoop_pairs (key value : Bytes) (nodes : List Node) :
    (putLoop key value nodes).map Node.pair = updateEntry key value (nodes.map Node.pair) := by
  induction nodes with
  | nil => rfl
  | cons curr next ih =>
    rw [putLoop, List.map_cons]
    rcases lt_trichotomy curr.key key with hlt | heq | hgt
    · rw [if_neg hlt.ne, if_neg fun h => lt_asymm hlt (bytesCompare_gt.mp h), List.map_cons, ih]
      exact (updateEntry_cons_lt _ hlt value).symm
    · rw [if_pos heq, List.map_cons, Node.pair]
      dsimp only
      rw [heq]
      exact (updateEntry_cons_eq _ heq value).symm
    · rw [if_neg hgt.ne', if_pos (bytesCompare_gt.mpr hgt), List.map_cons, List.map_cons]
      exact (updateEntry_cons_gt _ hgt value).symm

/-- The loop of `Delete` takes the key out of a list in order. -/
theorem deleteLoop_pairs (h : StrictBy Node.key nodes) (key : Bytes) :
    (∃ rest, deleteLoop key nodes = .ok rest ∧
      deleteEntry key (nodes.map Node.pair) = some (rest.map Node.pair)) ∨
    deleteLoop key nodes = .error "key not found" ∧ (nodes.map Node.pair).lookup key = none := by
  induction nodes with
  | nil => exact Or.inr ⟨rfl, rfl⟩
  | cons curr next ih =>
    obtain ⟨h1, h2⟩ := List.pairwise_cons.mp h
    rw [deleteLoop, List.map_cons, List.lookup_cons]
    by_cases heq : curr.key = key
    · exact Or.inl ⟨next, if_pos heq, deleteEntry_cons_eq _ heq⟩
    · rw [if_neg heq, beq_false_of_ne (show key ≠ curr.pair.1 from Ne.symm heq)]
      rcases ih h2 with ⟨rest, h3, h4⟩ | ⟨h3, h4⟩
      · -- the node that is found has a larger key than `curr`
        obtain ⟨v, r, h5, -⟩ := deleteEntry_eq_some h4
        have hmem : key ∈ next.map Node.key := by
          rw [← map_fst_pairs, h5, List.map_append, List.map_cons]
          exact List.mem_append_right _ List.mem_cons_self
        obtain ⟨node, hnode, hkey⟩ := List.mem_map.mp hmem
        refine Or.inl ⟨curr :: rest, by rw [h3]; rfl, ?_⟩
        rw [deleteEntry_cons_lt _ (show curr.pair.1 < key from hkey ▸ h1 node hnode), h4]
        rfl
      · exact Or.inr ⟨by rw [h3]; rfl, h4⟩

end Loops

/-! ## One call -/

section Step

variable {w : World} {key value : Bytes}

/-- `Put` when the first node does not have the key. -/
theorem put_pairs {ldb : LevelDb} (hc : Clear ldb (.put key value)) :
    (ldb.put key value).2.pairs = updateEntry key value ldb.pairs := by
  obtain ⟨nodes⟩ := ldb
  cases nodes with
  | nil => rfl
  | cons node next =>
    have hne : node.key ≠ key := hc node rfl
    simp only [LevelDb.put, LevelDb.pairs]
    split_ifs with hgt
    · exact (updateEntry_cons_gt _ (bytesCompare_gt.mp hgt) value).symm
    · have hlt : node.key < key := lt_of_le_of_ne (not_lt.mp fun h => hgt (bytesCompare_gt.mpr h)) hne
      rw [List.map_cons, List.map_cons, putLoop_pairs]
      exact (updateEntry_cons_lt _ hlt value).symm

/-- `Put` when it does. -/
theorem put_head_not_strict {ldb : LevelDb} (hc : ¬ Clear ldb (.put key value)) :
    ¬ StrictBy Node.key (ldb.put key value).2.entries := by
  obtain ⟨nodes⟩ := ldb
  cases nodes with
  | nil =>
    refine absurd ?_ hc
    intro node hnode
    cases hnode
  | cons node next =>
    have heq : node.key = key := by
      by_contra hne
      refine hc fun node' hnode => ?_
      obtain rfl : node = node' := Option.some.inj hnode
      exact hne
    have hnot : ¬ bytesCompare node.key key > 0 := fun hgt => (bytesCompare_gt.mp hgt).ne' heq
    simp only [LevelDb.put, if_neg hnot]
    intro hstrict
    -- the loop puts the key behind the first node
    have hmem : key ∈ (putLoop key value next).map Node.key := by
      rw [← map_fst_pairs, putLoop_pairs]
      exact mem_keys_updateEntry key value _
    obtain ⟨node', hnode, hkey⟩ := List.mem_map.mp hmem
    have hlt := (List.pairwise_cons.mp hstrict).1 node' hnode
    rw [heq, hkey] at hlt
    exact lt_irrefl key hlt

/-- `Delete` is the deletion of a map. -/
theorem delete_pairs {ldb : LevelDb} (h : StrictBy Node.key ldb.entries) (key : Bytes) :
    ((ldb.delete key).1 = .ok () ∧ deleteEntry key ldb.pairs = some (ldb.delete key).2.pairs) ∨
      (∃ err, (ldb.delete key).1 = .error err) ∧ (ldb.delete key).2 = ldb ∧ ldb.pairs.lookup key = none := by
  obtain ⟨nodes⟩ := ldb
  cases nodes with
  | nil => exact Or.inr ⟨⟨_, rfl⟩, rfl, rfl⟩
  | cons node next =>
    have hloop := deleteLoop_pairs h key
    simp only [LevelDb.delete, LevelDb.pairs]
    rw [deleteLoop] at hloop
    by_cases heq : node.key = key
    · rw [if_pos heq]
      exact Or.inl ⟨rfl, deleteEntry_cons_eq _ heq⟩
    · rw [if_neg heq] at hloop ⊢
      cases hnext : deleteLoop key next with
      | ok rest =>
        rw [hnext] at hloop
        rcases hloop with ⟨rest', h1, h2⟩ | ⟨h1, -⟩
        · obtain rfl : node :: rest = rest' := Except.ok.inj h1
          exact Or.inl ⟨rfl, h2⟩
        · cases h1
      | error err =>
        rw [hnext] at hloop
        rcases hloop with ⟨rest', h1, -⟩ | ⟨-, h2⟩
        · cases h1
        · exact Or.inr ⟨⟨err, rfl⟩, rfl, h2⟩

theorem ActsAs.of_represents (h : Represents w.db.pairs w.map) : ActsAs w.db w.map := by
  have hstrict := strict_pairs.mp h.strict
  refine ⟨hstrict, fun key => ?_, fun key => ?_, fun key => ?_, fun key hok => ?_⟩
  · rw [← h.lookup key]
    exact getLoop_eq key _
  · rw [← h.lookup key]
    exact hasLoop_eq key _
  · rw [← h.lookup key]
    rcases delete_pairs hstrict key with ⟨h1, h2⟩ | ⟨⟨err, h1⟩, -, h2⟩
    · rw [h1, isSome_of_deleteEntry h.strict h2]
      rfl
    · rw [h1, h2]
      rfl
  · rcases delete_pairs hstrict key with ⟨-, h2⟩ | ⟨⟨err, h1⟩, -, -⟩
    · rw [← map_fst_pairs, ← lookup_eq_none]
      exact (lookup_deleteEntry_strict h.strict h2).trans (if_pos rfl)
    · rw [h1] at hok
      cases hok

theorem represents_call (h : Represents w.db.pairs w.map) {c : Call} (hc : Clear w.db c) :
    Represents (w.db.call c).2.pairs (c.apply w.map) := by
  cases c with
  | put key value =>
    show Represents (w.db.put key value).2.pairs _
    rw [put_pairs hc]
    exact h.put key value
  | delete key =>
    show Represents (w.db.delete key).2.pairs _
    rcases delete_pairs (strict_pairs.mp h.strict) key with ⟨-, h2⟩ | ⟨-, h1, h2⟩
    · exact h.delete h2
    · rw [h1]
      exact h.delete_absent h2

/-- **One call**: the store acts as the map afterwards iff the call does not put the key of the first
node. -/
theorem exec_iff (h : Represents w.db.pairs w.map) {c : Call} {r : Except String Unit} {w' : World}
    (he : storeSystem.exec w c = some (r, w')) :
    (ActsAs w'.db w'.map ↔ Clear w.db c) ∧ (Clear w.db c → Represents w'.db.pairs w'.map) := by
  obtain ⟨rfl, rfl⟩ := Prod.mk.inj (Option.some.inj he)
  refine ⟨⟨fun hacts => ?_, fun hc => ActsAs.of_represents (represents_call h hc)⟩, represents_call h⟩
  by_contra hc
  cases c with
  | put key value => exact put_head_not_strict hc hacts.sorted
  | delete key => exact hc trivial

theorem represents_init (h : storeSystem.init w) : Represents w.db.pairs w.map := by
  rcases h with rfl | ⟨key, val, rfl⟩
  · exact Represents.nil
  · exact Represents.nil.put key val

end Step

/-! ## Runs -/

/-- **The store is a map kept in key order** at the start and after every call of a run, from the empty
database or from `NewNode`, iff no call of the run puts the key that the first node has then. -/
theorem acts_as_map_iff (w : World) (hw : storeSystem.init w) (calls : List Call) :
    (ActsAs w.db w.map ∧ storeSystem.Along (fun _ _ _ w' => ActsAs w'.db w'.map) w calls) ↔
      storeSystem.Along (fun w c _ _ => Clear w.db c) w calls := by
  have hrep := represents_init hw
  have hiff := System.along_iff (I := fun w => Represents w.db.pairs w.map) (L := fun _ => True)
    (fun _ _ _ _ h _ he => exec_iff h he) calls w hrep fun _ _ => trivial
  exact ⟨fun h => hiff.mp h.2, fun h => ⟨ActsAs.of_represents hrep, hiff.mpr h⟩⟩

/-- The world of `NewNode(key, val)`. -/
def newWorld (key val : Bytes) : World := ⟨newNode key val, (MapCall.put key val).apply fun _ => none⟩

/-- `Put("a", 2)`, `Put("b", 3)`, `Delete("a")` on `NewNode("b", 1)`: `"b"` is the second node when it is put. -/
theorem acts_as_map_iff_sample : ActsAs (newWorld [98] [1]).db (newWorld [98] [1]).map ∧
    storeSystem.Along (fun _ _ _ w' => ActsAs w'.db w'.map) (newWorld [98] [1])
      [.put [97] [2], .put [98] [3], .delete [97]] := by
  refine (acts_as_map_iff (newWorld [98] [1]) (Or.inr ⟨[98], [1], rfl⟩) _).mpr ⟨?_, ?_, trivial, trivial⟩
  · intro node hnode
    obtain rfl : Node.mk [98] [1] = node := Option.some.inj hnode
    decide
  · intro node hnode
    obtain rfl : Node.mk [97] [2] = node := Option.some.inj hnode
    decide

/-- `Put("b", 3)` on `NewNode("b", 1)`: `Get("b")` still returns 1. -/
theorem not_acts_as_map_sample :
    ¬ storeSystem.Along (fun _ _ _ w' => ActsAs w'.db w'.map) (newWorld [98] [1]) [.put [98] [3]] := by
  intro h
  have hget : (Except.ok [1] : Except String Bytes) = .ok [3] := h.1.get [98]
  cases hget

end Csapp.LinkedList
