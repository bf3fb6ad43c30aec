import Csapp.Lib.CString
import Csapp.Lib.GroupTree
import Csapp.Lib.Links
import Mathlib.Data.List.Induction
import Mathlib.Logic.Relation
import Mathlib.Order.WellFounded

/-!
# Store.PrefixGroups — words in groups of equal first characters

`traverse` inserts a word into a search tree of groups: nodes with `left` and `right` links for the tree, and `next`
links from the head of a group through its other words.  A new word takes the place of the head of its group.  The
parent's link is set through `prevTNode`, which at the root is the old head itself: it then links to the new head
(`placed_at_root`), against the design, which has no links in nodes that are not heads.
-/

namespace Csapp.PrefixGroups

open Csapp.Lib

/-! ## The heap -/

/-- The nodes that are allocated are those below `size`.  `left` and `right` of a node are its links. -/
structure Heap where
  size : ℕ
  word : ℕ → CStr
  next : ℕ → Option ℕ
  link : Side → ℕ → Option ℕ

namespace Heap

def empty : Heap := ⟨0, fun _ => ⟨[], List.not_mem_nil⟩, fun _ => none, fun _ _ => none⟩

/-- A new node, with its fields as `traverse` sets them. -/
def nalloc (h : Heap) (p : CStr) : Heap where
  size := h.size + 1
  word := Function.update h.word h.size p
  next := Function.update h.next h.size none
  link := fun s => Function.update (h.link s) h.size none

def setNext (h : Heap) (t : ℕ) (p : Option ℕ) : Heap := { h with next := Function.update h.next t p }

def setLink (h : Heap) (s : Side) (t : ℕ) (p : Option ℕ) : Heap :=
  { h with link := Function.update h.link s (Function.update (h.link s) t p) }

end Heap

/-! ## Insertion -/

/-- Where the loop of `traverse` ends: at a node without a child on that side, or at the head of the group, with
`prevTNode`. -/
inductive Place
  | child (s : Side) (t : ℕ)
  | found (prev t : ℕ)

/-- The loop, from `tNode = t` on. -/
def search (h : Heap) (p : CStr) (k : ℕ) : ℕ → ℕ → ℕ → Option Place
  | 0, _, _ => none
  | fuel + 1, prev, t =>
    match strncmp k p.cells (h.word t).cells with
    | .eq => some (.found prev t)
    | .lt =>
      match h.link .left t with
      | none => some (.child .left t)
      | some t' => search h p k fuel t t'
    | .gt =>
      match h.link .right t with
      | none => some (.child .right t)
      | some t' => search h p k fuel t t'

/-- The new node takes the links of the old head and stands in front of it. -/
def Heap.takeOver (h : Heap) (newNode t : ℕ) : Heap :=
  let h := h.setLink .left newNode (h.link .left t)
  let h := h.setLink .right newNode (h.link .right t)
  let h := h.setNext newNode (some t)
  let h := h.setLink .left t none
  h.setLink .right t none

/-- The new node becomes a child, or the head of its group. -/
def Heap.place (h : Heap) (newNode : ℕ) : Place → Heap
  | .child s t => h.setLink s t (some newNode)
  | .found prev t =>
    let h := h.takeOver newNode t
    if h.link .left prev = some t then h.setLink .left prev (some newNode)
    else h.setLink .right prev (some newNode)

/-- The head that `traverse` returns. -/
def newHead (head newNode : ℕ) : Place → ℕ
  | .child _ _ => head
  | .found _ t => if t = head then newNode else head

/-- `traverse`. -/
def traverse (fuel : ℕ) (h : Heap) (head : Option ℕ) (p : CStr) (k : ℕ) : Option (Heap × Option ℕ) :=
  let newNode := h.size
  let h := h.nalloc p
  match head with
  | none => some (h, some newNode)
  | some head => (search h p k fuel head head).map fun o => (h.place newNode o, some (newHead head newNode o))

/-- The words of a sequence, from an empty tree. -/
def traverseAll (fuel k : ℕ) (words : List CStr) : Option (Heap × Option ℕ) :=
  words.foldlM (fun s p => traverse fuel s.1 s.2 p k) (Heap.empty, none)

/-! ## The tree of groups in a heap -/

/-- The heads are linked as the tree is, and the rest of every group hangs on its head. -/
def Rep (h : Heap) : Option ℕ → GroupTree ℕ → Prop
  | p, .nil => p = none
  | p, .node a rest sub => p = some a ∧ Links h.next a rest ∧ ∀ s, Rep h (h.link s a) (sub s)

/-- What a node is ordered by. -/
def Heap.key (k : ℕ) (h : Heap) (a : ℕ) : List ℕ := (h.word a).take k

/-- A search tree of groups over the words inserted so far: the group of a key are the words with these first
characters, the last one in front. -/
structure Grouped (k : ℕ) (words : List CStr) (h : Heap) (t : GroupTree ℕ) : Prop where
  nodup : t.nodes.Nodup
  sorted : t.Sorted (h.key k)
  groups : ∀ c, (t.lookup (h.key k) c).map h.word = (words.filter fun w => w.take k = c).reverse

/-- One of the three links of a node. -/
def Heap.Edge (h : Heap) (b c : ℕ) : Prop := h.next b = some c ∨ ∃ s, h.link s b = some c

/-- The documented structure: nodes that are not heads have no left and right links, and no path comes back. -/
structure Documented (k : ℕ) (words : List CStr) (h : Heap) (head : Option ℕ) (t : GroupTree ℕ) : Prop
    extends Grouped k words h t where
  rep : Rep h head t
  tails : ∀ b ∈ t.tails, ∀ s, h.link s b = none
  acyclic : ∀ b ∈ t.nodes, ¬Relation.TransGen h.Edge b b

section Rep

variable {h h' : Heap} {p : Option ℕ} {a : ℕ} {rest : List ℕ} {sub : Side → GroupTree ℕ} {t t' : GroupTree ℕ}

theorem Rep.congr (hr : Rep h p t) (hnext : ∀ b ∈ t.nodes, h'.next b = h.next b)
    (hlink : ∀ b ∈ t.heads, ∀ s, h'.link s b = h.link s b) : Rep h' p t := by
  induction t generalizing p with
  | nil => exact hr
  | node a rest sub ih =>
    obtain ⟨hp, hl, hsub⟩ := hr
    refine ⟨hp, hl.congr fun b hb => hnext b ?_, fun s => ?_⟩
    · rw [GroupTree.mem_nodes_node]
      exact (List.mem_cons.mp hb).imp_right Or.inl
    · rw [hlink a (GroupTree.head_mem_heads) s]
      refine ih s (hsub s) (fun b hb => hnext b ?_) fun b hb => hlink b ?_
      · exact GroupTree.mem_nodes_sub hb
      · exact GroupTree.mem_heads_sub hb

theorem Rep.mem_heads (hr : Rep h (some a) t) : a ∈ t.heads := by
  cases t with
  | nil => cases hr
  | node b rest sub => exact GroupTree.mem_heads_node.mpr (Or.inl (Option.some.inj hr.1))

/-- A heap has one tree at a pointer. -/
theorem Rep.unique (hr : Rep h p t) (hr' : Rep h p t') : t = t' := by
  induction t generalizing p t' with
  | nil =>
    cases t' with
    | nil => rfl
    | node a' rest' sub' => cases hr.symm.trans hr'.1
  | node a rest sub ih =>
    cases t' with
    | nil => cases hr.1.symm.trans hr'
    | node a' rest' sub' =>
      obtain ⟨hp, hl, hsub⟩ := hr
      obtain ⟨hp', hl', hsub'⟩ := hr'
      obtain rfl : a = a' := Option.some.inj (hp.symm.trans hp')
      obtain rfl : sub = sub' := funext fun s => ih s (hsub s) (hsub' s)
      rw [hl.unique hl']

/-- A list of nodes without left and right links ends. -/
theorem acc_of_links {l : List ℕ} (hl : Links h.next a l) (hnone : ∀ b ∈ a :: l, ∀ s, h.link s b = none) :
    ∀ b ∈ a :: l, Acc (fun c b => h.Edge b c) b := by
  induction l generalizing a with
  | nil =>
    intro b hb
    obtain rfl := List.mem_singleton.mp hb
    refine Acc.intro b fun c hc => ?_
    rcases hc with hc | ⟨s, hc⟩
    · cases hc.symm.trans hl
    · cases hc.symm.trans (hnone b hb s)
  | cons d l ih =>
    have hd := ih hl.2 fun b hb => hnone b (List.mem_cons_of_mem a hb)
    intro b hb
    rcases List.mem_cons.mp hb with rfl | hb'
    · refine Acc.intro b fun c hc => ?_
      rcases hc with hc | ⟨s, hc⟩
      · rw [Option.some.inj (hc.symm.trans hl.1)]
        exact hd d List.mem_cons_self
      · cases hc.symm.trans (hnone b hb s)
    · exact hd b hb'

/-- Every path from a node of the tree ends. -/
theorem Rep.acc (hr : Rep h p t) (htails : ∀ b ∈ t.tails, ∀ s, h.link s b = none) :
    ∀ b ∈ t.nodes, Acc (fun c b => h.Edge b c) b := by
  induction t generalizing p with
  | nil => exact fun _ hb => absurd hb List.not_mem_nil
  | node a rest sub ih =>
    obtain ⟨-, hl, hsub⟩ := hr
    have hunder : ∀ s, ∀ b ∈ (sub s).nodes, Acc (fun c b => h.Edge b c) b := fun s =>
      ih s (hsub s) fun b hb => htails b (GroupTree.mem_tails_sub hb)
    have hrest : ∀ b ∈ rest, Acc (fun c b => h.Edge b c) b := by
      cases rest with
      | nil => exact fun _ hb => absurd hb List.not_mem_nil
      | cons d rest =>
        exact acc_of_links hl.2 fun b hb => htails b (GroupTree.mem_tails_rest hb)
    intro b hb
    rcases GroupTree.mem_nodes_node.mp hb with rfl | hb | ⟨s, hb⟩
    · refine Acc.intro b fun c hc => ?_
      rcases hc with hc | ⟨s, hc⟩
      · rw [hl.next_eq] at hc
        exact hrest c (List.mem_of_mem_head? hc)
      · have hs := hsub s
        rw [hc] at hs
        exact hunder s c (GroupTree.mem_nodes_of_mem_heads hs.mem_heads)
    · exact hrest b hb
    · exact hunder s b hb

theorem not_transGen_of_acc {b : ℕ} (hb : Acc (fun c b => h.Edge b c) b) : ¬Relation.TransGen h.Edge b b := by
  have hacc : Acc (Relation.TransGen fun c b => h.Edge b c) b := hb.transGen
  intro hloop
  have hback : Relation.TransGen (fun c b => h.Edge b c) b b := Relation.transGen_swap.mpr hloop
  induction hacc with
  | intro b _ ih => exact ih b hback hb hloop hback

end Rep

/-! ## What the edits write -/

section Edits

variable {h : Heap} {s s' : Side} {p : Option ℕ} {a b newNode t prev : ℕ}

theorem setLink_link (h : Heap) (s s' : Side) (a b : ℕ) (p : Option ℕ) :
    (h.setLink s a p).link s' b = if s' = s ∧ b = a then p else h.link s' b := by
  by_cases hs : s' = s
  · subst hs
    by_cases hb : b = a
    · subst hb
      simp [Heap.setLink]
    · simp [Heap.setLink, hb]
  · simp [Heap.setLink, hs]

theorem takeOver_link (h : Heap) (hne : newNode ≠ t) (s : Side) (b : ℕ) :
    (h.takeOver newNode t).link s b =
      if b = t then none else if b = newNode then h.link s t else h.link s b := by
  cases s <;> simp [Heap.takeOver, Heap.setNext, setLink_link, hne.symm]

theorem place_next_found :
    (h.place newNode (.found prev t)).next = Function.update h.next newNode (some t) := by
  rw [Heap.place]
  split <;> rfl

theorem place_next_of_ne (hb : b ≠ newNode) : (h.place newNode (.found prev t)).next b = h.next b := by
  rw [place_next_found, Function.update_of_ne hb]

theorem place_word (o : Place) : (h.place newNode o).word = h.word := by
  cases o with
  | child s t => rfl
  | found prev t =>
    rw [Heap.place]
    split <;> rfl

theorem place_size (o : Place) : (h.place newNode o).size = h.size := by
  cases o with
  | child s t => rfl
  | found prev t =>
    rw [Heap.place]
    split <;> rfl

/-- Under a parent, the link that led to the old head leads to the new one. -/
theorem place_found_link (hnt : newNode ≠ t) (hnp : newNode ≠ prev) (hpt : prev ≠ t)
    (hlink : h.link s prev = some t) (hleft : s = .right → h.link .left prev ≠ some t) (s' : Side) (b : ℕ) :
    (h.place newNode (.found prev t)).link s' b =
      if s' = s ∧ b = prev then some newNode
      else if b = t then none else if b = newNode then h.link s' t else h.link s' b := by
  have hprev : (h.takeOver newNode t).link .left prev = h.link .left prev := by
    rw [takeOver_link h hnt, if_neg hpt, if_neg hnp.symm]
  rw [Heap.place, hprev]
  cases s with
  | left => rw [if_pos hlink, setLink_link, takeOver_link h hnt]
  | right => rw [if_neg (hleft rfl), setLink_link, takeOver_link h hnt]

/-- At the root the old head gets a link to the new one. -/
theorem placed_at_root (hnt : newNode ≠ t) (s' : Side) (b : ℕ) :
    (h.place newNode (.found t t)).link s' b =
      if s' = .right ∧ b = t then some newNode
      else if b = t then none else if b = newNode then h.link s' t else h.link s' b := by
  have ht : (h.takeOver newNode t).link .left t = none := by
    rw [takeOver_link h hnt, if_pos rfl]
  rw [Heap.place, ht, if_neg (Option.some_ne_none t).symm, setLink_link, takeOver_link h hnt]

end Edits

/-! ## The loop -/

section Loop

variable {h : Heap} {k newNode a a' prev fuel : ℕ} {p : CStr} {rest : List ℕ} {sub : Side → GroupTree ℕ}
  {t : GroupTree ℕ} {s : Side} {o : Place}

/-- A round of the loop goes to the side of the new key, or ends. -/
theorem search_succ (h : Heap) (p : CStr) (k fuel prev t : ℕ) :
    search h p k (fuel + 1) prev t =
      match GroupTree.side (p.take k) (h.key k t) with
      | none => some (.found prev t)
      | some s =>
        match h.link s t with
        | none => some (.child s t)
        | some t' => search h p k fuel t t' := by
  have hc : (strncmp k p.cells (h.word t).cells).Compares (p.take k) (h.key k t) := strncmp_compares k p (h.word t)
  rw [search]
  cases ho : strncmp k p.cells (h.word t).cells with
  | lt =>
    rw [ho] at hc
    rw [GroupTree.side_eq_left.mpr hc]
  | eq =>
    rw [ho] at hc
    rw [GroupTree.side_eq_none.mpr hc]
  | gt =>
    rw [ho] at hc
    rw [GroupTree.side_eq_right.mpr hc]

theorem search_of_side {t : ℕ} (hs : GroupTree.side (p.take k) (h.key k t) = some s) :
    search h p k (fuel + 1) prev t =
      match h.link s t with
      | none => some (.child s t)
      | some t' => search h p k fuel t t' := by
  rw [search_succ, hs]

/-- The new node is allocated, and not yet linked. -/
structure Fresh (h : Heap) (newNode : ℕ) (t : GroupTree ℕ) : Prop where
  not_mem : newNode ∉ t.nodes
  next : h.next newNode = none
  link : ∀ s, h.link s newNode = none

/-- The new node is in the tree at `a`, whose head has stayed.  Only heads of the tree are edited, and who was made
to stand behind a head has no links. -/
structure Placed (k : ℕ) (h : Heap) (newNode a : ℕ) (t : GroupTree ℕ) (o : Place) : Prop where
  rep : Rep (h.place newNode o) (some a) (t.insert (h.key k) newNode)
  link : ∀ b, b ∉ t.heads → b ≠ newNode → ∀ s, (h.place newNode o).link s b = h.link s b
  next : ∀ b, b ≠ newNode → (h.place newNode o).next b = h.next b
  tails : ∀ b ∈ (t.insert (h.key k) newNode).tails, b ∈ t.tails ∨ ∀ s, (h.place newNode o).link s b = none
  found : ∀ q b, o = .found q b → b ∈ t.heads ∧ b ≠ a

/-- A tree changes with the one under it. -/
theorem Rep.descend {h' : Heap} (hr : Rep h (some a) (.node a rest sub)) (hap : GroupTree.Apart a rest sub)
    (hnew : newNode ∉ (GroupTree.node a rest sub).nodes)
    (hother : ∀ b, b ≠ a → b ∉ (sub s).heads → b ≠ newNode → ∀ s', h'.link s' b = h.link s' b)
    (ha : ∀ s', s' ≠ s → h'.link s' a = h.link s' a) (hnext : ∀ b, b ≠ newNode → h'.next b = h.next b)
    (hsub : Rep h' (h'.link s a) t) : Rep h' (some a) (.node a rest (Function.update sub s t)) := by
  have hne : ∀ b ∈ (GroupTree.node a rest sub).nodes, b ≠ newNode := fun b hb he => hnew (he ▸ hb)
  obtain ⟨-, hl, hsub'⟩ := hr
  refine ⟨rfl, hl.congr fun b hb => hnext b (hne b ?_), fun s' => ?_⟩
  · exact GroupTree.mem_nodes_group hb
  · by_cases he : s' = s
    · subst he
      rw [Function.update_self]
      exact hsub
    · rw [Function.update_of_ne he, ha s' he]
      have hmem : ∀ b ∈ (sub s').nodes, b ≠ newNode := fun b hb =>
        hne b (GroupTree.mem_nodes_sub hb)
      refine (hsub' s').congr (fun b hb => hnext b (hmem b hb)) fun b hb => ?_
      have hb' := GroupTree.mem_nodes_of_mem_heads hb
      refine hother b (fun hba => hap.head_sub s' (hba ▸ hb')) (fun hbs => ?_) (hmem b hb')
      exact hap.sides s' s he b hb' (GroupTree.mem_nodes_of_mem_heads hbs)

/-- A new head takes over the links of the old one and stands in front of it. -/
theorem Rep.replace {h' : Heap} (hr : Rep h (some a) (.node a rest sub))
    (hnew : newNode ∉ (GroupTree.node a rest sub).nodes) (hfront : h'.next newNode = some a)
    (hnext : ∀ b, b ≠ newNode → h'.next b = h.next b) (hover : ∀ s, h'.link s newNode = h.link s a)
    (hlink : ∀ s, ∀ b ∈ (sub s).heads, ∀ s', h'.link s' b = h.link s' b) :
    Rep h' (some newNode) (.node newNode (a :: rest) sub) := by
  have hne : ∀ b ∈ (GroupTree.node a rest sub).nodes, b ≠ newNode := fun b hb he => hnew (he ▸ hb)
  obtain ⟨-, hl, hsub⟩ := hr
  refine ⟨rfl, ⟨hfront, hl.congr fun b hb => hnext b (hne b ?_)⟩, fun s => ?_⟩
  · exact GroupTree.mem_nodes_group hb
  · rw [hover s]
    refine (hsub s).congr (fun b hb => hnext b (hne b ?_)) (hlink s)
    exact GroupTree.mem_nodes_sub hb

theorem tails_descend {h' : Heap} {u : GroupTree ℕ}
    (ht : ∀ b ∈ u.tails, b ∈ (sub s).tails ∨ ∀ s', h'.link s' b = none) :
    ∀ b ∈ (GroupTree.node a rest (Function.update sub s u)).tails,
      b ∈ (GroupTree.node a rest sub).tails ∨ ∀ s', h'.link s' b = none := by
  intro b hb
  rw [GroupTree.mem_tails_node]
  rcases GroupTree.mem_tails_node.mp hb with hb | ⟨s', hb⟩
  · exact Or.inl (Or.inl hb)
  · by_cases he : s' = s
    · subst he
      rw [Function.update_self] at hb
      exact (ht b hb).imp_left fun hb => Or.inr ⟨s', hb⟩
    · rw [Function.update_of_ne he] at hb
      exact Or.inl (Or.inr ⟨s', hb⟩)

/-- A leaf under `a`. -/
theorem placed_child (hr : Rep h (some a) (.node a rest sub)) (hap : GroupTree.Apart a rest sub)
    (hnew : Fresh h newNode (.node a rest sub))
    (hs : GroupTree.side (h.key k newNode) (h.key k a) = some s) (hsub : sub s = .nil) :
    Placed k h newNode a (.node a rest sub) (.child s a) := by
  have hna : newNode ≠ a := fun he => hnew.not_mem (GroupTree.mem_nodes_node.mpr (Or.inl he))
  have hother : ∀ b, b ≠ a → ∀ s', (h.place newNode (.child s a)).link s' b = h.link s' b := by
    intro b hb s'
    rw [Heap.place, setLink_link, if_neg fun hc => hb hc.2]
  have hleaf : Rep (h.place newNode (.child s a)) ((h.place newNode (.child s a)).link s a)
      ((sub s).insert (h.key k) newNode) := by
    rw [hsub, Heap.place, setLink_link, if_pos ⟨rfl, rfl⟩]
    exact ⟨rfl, hnew.next, fun s' => (hother newNode hna s').trans (hnew.link s')⟩
  refine ⟨?_, fun b hb _ s' => ?_, fun b _ => rfl, ?_, fun q b he => nomatch he⟩
  · rw [GroupTree.insert_of_side rest sub hs]
    refine hr.descend hap hnew.not_mem (fun b hb _ _ => hother b hb) (fun s' he => ?_) (fun b _ => rfl) hleaf
    rw [Heap.place, setLink_link, if_neg fun hc => he hc.1]
  · exact hother b (fun he => hb (GroupTree.mem_heads_node.mpr (Or.inl he))) s'
  · rw [GroupTree.insert_of_side rest sub hs]
    refine tails_descend fun b hb => ?_
    rw [hsub] at hb
    exact absurd hb List.not_mem_nil

/-- The head of a group under `a` is replaced. -/
theorem placed_found {rest' : List ℕ} {sub' : Side → GroupTree ℕ} (hr : Rep h (some a) (.node a rest sub))
    (hap : GroupTree.Apart a rest sub) (hnew : Fresh h newNode (.node a rest sub))
    (hs : GroupTree.side (h.key k newNode) (h.key k a) = some s) (hsub : sub s = .node a' rest' sub')
    (heq : h.key k newNode = h.key k a') : Placed k h newNode a (.node a rest sub) (.found a a') := by
  have hmem : ∀ b ∈ (sub s).nodes, b ∈ (GroupTree.node a rest sub).nodes := fun b hb =>
    GroupTree.mem_nodes_sub hb
  have hne : ∀ b ∈ (GroupTree.node a rest sub).nodes, b ≠ newNode := fun b hb he => hnew.not_mem (he ▸ hb)
  have hna : a ≠ newNode := hne a (GroupTree.head_mem_nodes)
  have hsubRep := hr.2.2 s
  have ha' : h.link s a = some a' := by
    rw [hsub] at hsubRep
    exact hsubRep.1
  rw [ha'] at hsubRep
  have hmem' : a' ∈ (sub s).nodes := GroupTree.mem_nodes_of_mem_heads hsubRep.mem_heads
  have hna' : a' ≠ newNode := hne a' (hmem a' hmem')
  have haa' : a ≠ a' := fun he => hap.head_sub s (he ▸ hmem')
  have hleft : s = .right → h.link .left a ≠ some a' := by
    rintro rfl hl
    have hl' := hr.2.2 .left
    rw [hl] at hl'
    exact hap.sides .left .right (by decide) a' (GroupTree.mem_nodes_of_mem_heads hl'.mem_heads) hmem'
  have hlink := place_found_link hna'.symm hna.symm haa' ha' hleft
  have hother : ∀ b, b ≠ a → b ≠ a' → b ≠ newNode → ∀ s',
      (h.place newNode (.found a a')).link s' b = h.link s' b := by
    intro b hba hba' hbn s'
    rw [hlink, if_neg fun hc => hba hc.2, if_neg hba', if_neg hbn]
  have hins : (sub s).insert (h.key k) newNode = .node newNode (a' :: rest') sub' := by
    rw [hsub, GroupTree.insert_of_eq heq]
  have hgroup : Rep (h.place newNode (.found a a')) ((h.place newNode (.found a a')).link s a)
      ((sub s).insert (h.key k) newNode) := by
    rw [hins, hlink, if_pos ⟨rfl, rfl⟩]
    have hapart := GroupTree.apart_of_nodup (hsub ▸ hap.nodup s)
    rw [hsub] at hsubRep hmem
    refine hsubRep.replace (fun hb => hnew.not_mem (hmem _ hb)) ?_ (fun b => place_next_of_ne) (fun s' => ?_)
      fun s' b hb => ?_
    · rw [place_next_found, Function.update_self]
    · rw [hlink, if_neg fun hc => hna hc.2.symm, if_neg hna'.symm, if_pos rfl]
    · have hb' := GroupTree.mem_nodes_of_mem_heads hb
      have hb₂ : b ∈ (GroupTree.node a' rest' sub').nodes :=
        GroupTree.mem_nodes_sub hb'
      refine hother b (fun he => ?_) (fun he => hapart.head_sub s' (he ▸ hb')) (hne b (hmem b hb₂))
      exact hap.head_sub s (hsub ▸ he ▸ hb₂)
  refine ⟨?_, fun b hb hbn => ?_, fun b => place_next_of_ne, ?_, ?_⟩
  · rw [GroupTree.insert_of_side rest sub hs]
    refine hr.descend hap hnew.not_mem (fun b hba hb hbn => ?_) (fun s' he => ?_)
      (fun b => place_next_of_ne) hgroup
    · exact hother b hba (fun he => hb (he ▸ hsubRep.mem_heads)) hbn
    · rw [hlink, if_neg fun hc => he hc.1, if_neg haa', if_neg hna]
  · refine hother b (fun he => hb ?_) (fun he => hb ?_) hbn
    · exact GroupTree.mem_heads_node.mpr (Or.inl he)
    · exact GroupTree.mem_heads_node.mpr (Or.inr ⟨s, he ▸ hsubRep.mem_heads⟩)
  · rw [GroupTree.insert_of_side rest sub hs]
    refine tails_descend fun b hb => ?_
    rw [hins, GroupTree.mem_tails_node] at hb
    rw [hsub, GroupTree.mem_tails_node]
    rcases hb with hb | hb
    · rcases List.mem_cons.mp hb with rfl | hb
      · exact Or.inr fun s' => by rw [hlink, if_neg fun hc => haa' hc.2.symm, if_pos rfl]
      · exact Or.inl (Or.inl hb)
    · exact Or.inl (Or.inr hb)
  · rintro q b he
    obtain ⟨-, rfl⟩ := Place.found.inj he
    exact ⟨GroupTree.mem_heads_node.mpr (Or.inr ⟨s, hsubRep.mem_heads⟩), haa'.symm⟩

/-- The new node is further down. -/
theorem Placed.descend (hr : Rep h (some a) (.node a rest sub)) (hap : GroupTree.Apart a rest sub)
    (hnew : Fresh h newNode (.node a rest sub))
    (hs : GroupTree.side (h.key k newNode) (h.key k a) = some s) (ha' : h.link s a = some a')
    (hpl : Placed k h newNode a' (sub s) o) : Placed k h newNode a (.node a rest sub) o := by
  have hna : a ≠ newNode := fun he => hnew.not_mem (he ▸ GroupTree.head_mem_nodes)
  have hheads : ∀ b ∈ (sub s).heads, b ∈ (GroupTree.node a rest sub).heads := fun b hb =>
    GroupTree.mem_heads_sub hb
  have ha : ∀ s', (h.place newNode o).link s' a = h.link s' a :=
    hpl.link a (fun hb => hap.head_sub s (GroupTree.mem_nodes_of_mem_heads hb)) hna
  have hrep := hpl.rep
  rw [← ha', ← ha s] at hrep
  refine ⟨?_, fun b hb => hpl.link b fun hb' => hb (hheads b hb'), hpl.next, ?_, fun q b he => ?_⟩
  · rw [GroupTree.insert_of_side rest sub hs]
    exact hr.descend hap hnew.not_mem (fun b _ hb => hpl.link b hb) (fun s' _ => ha s') hpl.next hrep
  · rw [GroupTree.insert_of_side rest sub hs]
    exact tails_descend hpl.tails
  · obtain ⟨hb, -⟩ := hpl.found q b he
    exact ⟨hheads b hb, fun he' => hap.head_sub s (he' ▸ GroupTree.mem_nodes_of_mem_heads hb)⟩

/-- The loop ends at the root of the tree, or places the new node in the tree.  By induction on the tree; every
round goes one node down. -/
theorem search_placed (hword : h.word newNode = p) :
    ∀ (t : GroupTree ℕ) (fuel prev a : ℕ), Rep h (some a) t → t.nodes.Nodup → Fresh h newNode t →
      t.nodes.length ≤ fuel → ∃ o, search h p k fuel prev a = some o ∧
        (h.key k newNode = h.key k a ∧ o = .found prev a ∨ Placed k h newNode a t o) := by
  intro t
  induction t with
  | nil => exact fun _ _ _ hr => nomatch hr
  | node b rest sub ih =>
    intro fuel prev a hr hnd hnew hfuel
    obtain rfl : a = b := Option.some.inj hr.1
    have hap := GroupTree.apart_of_nodup hnd
    have hkey : h.key k newNode = p.take k := by rw [Heap.key, hword]
    rw [GroupTree.nodes, List.length_cons] at hfuel
    obtain ⟨fuel, rfl⟩ := Nat.exists_eq_add_of_le' (Nat.le_trans (Nat.succ_le_succ (Nat.zero_le _)) hfuel)
    cases hs : GroupTree.side (h.key k newNode) (h.key k a) with
    | none =>
      refine ⟨.found prev a, ?_, Or.inl ⟨GroupTree.side_eq_none.mp hs, rfl⟩⟩
      rw [search_succ, ← hkey, hs]
    | some s =>
      rw [search_of_side (hkey ▸ hs)]
      have hsubRep := hr.2.2 s
      cases ha' : h.link s a with
      | none =>
        have hnil : sub s = .nil := by
          rw [ha'] at hsubRep
          exact hsubRep.unique (show Rep h none .nil from rfl)
        exact ⟨_, rfl, Or.inr (placed_child hr hap hnew hs hnil)⟩
      | some a' =>
        rw [ha'] at hsubRep
        have hmem : ∀ b ∈ (sub s).nodes, b ∈ (GroupTree.node a rest sub).nodes := fun b hb =>
          GroupTree.mem_nodes_sub hb
        have hlen : (sub s).nodes.length ≤ fuel := by
          rw [List.length_append, List.length_append] at hfuel
          cases s <;> omega
        obtain ⟨o, ho, hcase⟩ := ih s fuel a a' hsubRep (hap.nodup s)
          ⟨fun hb => hnew.not_mem (hmem _ hb), hnew.next, hnew.link⟩ hlen
        refine ⟨o, ho, Or.inr ?_⟩
        rcases hcase with ⟨heq, rfl⟩ | hpl
        · cases hsub : sub s with
          | nil =>
            rw [hsub] at hsubRep
            cases hsubRep
          | node b' rest' sub' =>
            rw [hsub] at hsubRep
            obtain rfl : a' = b' := Option.some.inj hsubRep.1
            exact placed_found hr hap hnew hs hsub heq
        · exact hpl.descend hr hap hnew hs ha'

/-- The root is replaced: what hung on it hangs on the new node. -/
theorem rep_root (hr : Rep h (some a) (.node a rest sub)) (hap : GroupTree.Apart a rest sub)
    (hnew : newNode ∉ (GroupTree.node a rest sub).nodes) :
    Rep (h.place newNode (.found a a)) (some newNode) (.node newNode (a :: rest) sub) := by
  have hne : ∀ b ∈ (GroupTree.node a rest sub).nodes, b ≠ newNode := fun b hb he => hnew (he ▸ hb)
  have hna : newNode ≠ a := (hne a (GroupTree.head_mem_nodes)).symm
  refine hr.replace hnew ?_ (fun b => place_next_of_ne) (fun s => ?_) fun s b hb s' => ?_
  · rw [place_next_found, Function.update_self]
  · rw [placed_at_root hna, if_neg fun hc => hna hc.2, if_neg hna, if_pos rfl]
  · have hb' := GroupTree.mem_nodes_of_mem_heads hb
    have hba : b ≠ a := fun he => hap.head_sub s (he ▸ hb')
    have hbn : b ≠ newNode := hne b (GroupTree.mem_nodes_sub hb')
    rw [placed_at_root hna, if_neg fun hc => hba hc.2, if_neg hba, if_neg hbn]

end Loop

/-! ## Runs -/

section Runs

variable {h h' : Heap} {k newNode a fuel : ℕ} {p : CStr} {words : List CStr} {rest : List ℕ}
  {sub : Side → GroupTree ℕ} {t : GroupTree ℕ}

/-- A word more in the tree. -/
theorem Grouped.insert (hg : Grouped k words h t) (hnew : newNode ∉ t.nodes)
    (hword : h'.word = Function.update h.word newNode p) :
    Grouped k (words ++ [p]) h' (t.insert (h'.key k) newNode) := by
  have hold : ∀ b ∈ t.nodes, h'.word b = h.word b := by
    intro b hb
    have hne : b ≠ newNode := fun he => hnew (he ▸ hb)
    rw [hword, Function.update_of_ne hne]
  have hkey : ∀ b ∈ t.heads, h'.key k b = h.key k b := fun b hb => by
    rw [Heap.key, Heap.key, hold b (GroupTree.mem_nodes_of_mem_heads hb)]
  have hkeyNew : h'.key k newNode = p.take k := by rw [Heap.key, hword, Function.update_self]
  refine ⟨?_, (hg.sorted.congr hkey).insert, fun c => ?_⟩
  · exact (GroupTree.nodes_insert _ _ t).nodup_iff.mpr (List.nodup_cons.mpr ⟨hnew, hg.nodup⟩)
  · have hgroup : (t.lookup (h'.key k) c).map h'.word = (words.filter fun w => w.take k = c).reverse := by
      rw [← hg.groups c, GroupTree.lookup_congr hkey]
      exact List.map_congr_left fun b hb => hold b (GroupTree.mem_nodes_of_mem_lookup hb)
    rw [GroupTree.lookup_insert, hkeyNew, List.filter_append, List.reverse_append]
    by_cases hc : c = p.take k
    · subst hc
      rw [if_pos rfl, List.map_cons, hgroup, hword, Function.update_self, List.filter_singleton]
      simp
    · rw [if_neg hc, hgroup, List.filter_singleton]
      simp [Ne.symm hc]

/-- The tree after some words.  All but the head of the root group have a link to the right, no other node behind a
head has links. -/
structure Built (k : ℕ) (words : List CStr) (h : Heap) (a : ℕ) (rest : List ℕ) (sub : Side → GroupTree ℕ) : Prop
    extends Grouped k words h (.node a rest sub) where
  rep : Rep h (some a) (.node a rest sub)
  below : ∀ b ∈ (GroupTree.node a rest sub).nodes, b < h.size
  count : (GroupTree.node a rest sub).nodes.length = words.length
  first : ∀ w ∈ words.head?, w.take k = h.key k a
  root : ∀ b ∈ rest, h.link .right b ≠ none
  tails : ∀ b ∈ (GroupTree.node a rest sub).tails, b ∉ rest → ∀ s, h.link s b = none

theorem grouped_nil (k : ℕ) (h : Heap) : Grouped k [] h .nil :=
  ⟨List.nodup_nil, List.Pairwise.nil, fun _ => rfl⟩

theorem built_singleton (k : ℕ) (w : CStr) : Built k [w] (Heap.empty.nalloc w) 0 [] fun _ => .nil where
  toGrouped := (grouped_nil k Heap.empty).insert List.not_mem_nil rfl
  rep := ⟨rfl, rfl, fun _ => rfl⟩
  below := fun b hb => by
    rw [List.mem_singleton.mp hb]
    exact Nat.one_pos
  count := rfl
  first := fun v hv => by
    obtain rfl := Option.some.inj hv
    rfl
  root := fun _ hb => absurd hb List.not_mem_nil
  tails := fun _ hb => absurd hb List.not_mem_nil

section Step

variable (hb : Built k words h a rest sub) (p : CStr) {o : Place} {a' : ℕ} {rest' : List ℕ}
  {sub' : Side → GroupTree ℕ}

include hb

theorem Built.size_not_mem : h.size ∉ (GroupTree.node a rest sub).nodes := fun hmem => (hb.below _ hmem).false

theorem Built.ne_size {b : ℕ} (hmem : b ∈ (GroupTree.node a rest sub).nodes) : b ≠ h.size :=
  fun he => hb.size_not_mem (he ▸ hmem)

theorem Built.head_ne_size : a ≠ h.size := hb.ne_size (GroupTree.head_mem_nodes)

theorem Built.rep_nalloc : Rep (h.nalloc p) (some a) (.node a rest sub) :=
  hb.rep.congr (fun _ hmem => Function.update_of_ne (hb.ne_size hmem) _ _)
    fun _ hmem _ => Function.update_of_ne (hb.ne_size (GroupTree.mem_nodes_of_mem_heads hmem)) _ _

theorem Built.fresh : Fresh (h.nalloc p) h.size (.node a rest sub) :=
  ⟨hb.size_not_mem, Function.update_self _ _ _, fun _ => Function.update_self _ _ _⟩

/-- What is left to show of a new node that is placed somewhere: the tree in memory, and the links of the nodes
behind heads. -/
theorem Built.place (hins : (GroupTree.node a rest sub).insert ((h.nalloc p).key k) h.size = .node a' rest' sub')
    (hkey : (h.nalloc p).key k a' = (h.nalloc p).key k a)
    (hrep : Rep ((h.nalloc p).place h.size o) (some a') (.node a' rest' sub'))
    (hroot : ∀ b ∈ rest', ((h.nalloc p).place h.size o).link .right b ≠ none)
    (htails : ∀ b ∈ (GroupTree.node a' rest' sub').tails, b ∉ rest' →
      ∀ s, ((h.nalloc p).place h.size o).link s b = none) :
    Built k (words ++ [p]) ((h.nalloc p).place h.size o) a' rest' sub' := by
  have hword : ((h.nalloc p).place h.size o).word = Function.update h.word h.size p := place_word o
  have hkeys : ((h.nalloc p).place h.size o).key k = (h.nalloc p).key k := by
    funext b
    rw [Heap.key, hword, Heap.key]
    rfl
  have hgrouped := hb.toGrouped.insert hb.size_not_mem hword
  have hperm := GroupTree.nodes_insert ((h.nalloc p).key k) h.size (.node a rest sub)
  rw [hkeys, hins] at hgrouped
  rw [hins] at hperm
  refine ⟨hgrouped, hrep, fun b hmem => ?_, ?_, fun w hw => ?_, hroot, htails⟩
  · rw [place_size]
    rcases List.mem_cons.mp (hperm.mem_iff.mp hmem) with rfl | hmem
    · exact Nat.lt_succ_self _
    · exact Nat.lt_succ_of_lt (hb.below b hmem)
  · rw [hperm.length_eq, List.length_cons, hb.count, List.length_append, List.length_singleton]
  · have hne : words ≠ [] := by
      rintro rfl
      exact absurd hb.count (Nat.succ_ne_zero _)
    rw [List.head?_append_of_ne_nil _ hne] at hw
    have hold : (h.nalloc p).key k a = h.key k a :=
      congrArg (CStr.take k) (Function.update_of_ne hb.head_ne_size _ _)
    rw [hkeys, hkey, hold]
    exact hb.first w hw

/-- The word belongs to the group of the root. -/
theorem Built.place_root (hkey : (h.nalloc p).key k h.size = (h.nalloc p).key k a) :
    Built k (words ++ [p]) ((h.nalloc p).place h.size (.found a a)) h.size (a :: rest) sub := by
  have hap := GroupTree.apart_of_nodup hb.nodup
  have hlink := placed_at_root (h := h.nalloc p) hb.head_ne_size.symm
  have hkeep : ∀ b ∈ (GroupTree.node a rest sub).nodes, b ≠ a → ∀ s,
      ((h.nalloc p).place h.size (.found a a)).link s b = h.link s b := by
    intro b hmem hba s
    rw [hlink, if_neg fun hc => hba hc.2, if_neg hba, if_neg (hb.ne_size hmem)]
    exact Function.update_of_ne (hb.ne_size hmem) _ _
  refine hb.place p (GroupTree.insert_of_eq hkey) hkey (rep_root (hb.rep_nalloc p) hap hb.size_not_mem)
    (fun b hmem => ?_) fun b hmem hnot s => ?_
  · rcases List.mem_cons.mp hmem with rfl | hmem
    · rw [hlink, if_pos ⟨rfl, rfl⟩]
      exact Option.some_ne_none _
    · have hba : b ≠ a := fun he => hap.head (he ▸ hmem)
      rw [hkeep b (GroupTree.mem_nodes_node.mpr (Or.inr (Or.inl hmem))) hba]
      exact hb.root b hmem
  · obtain ⟨hba, hrest⟩ := not_or.mp (List.mem_cons.not.mp hnot)
    have hmem' : b ∈ (GroupTree.node a rest sub).tails := by
      rw [GroupTree.mem_tails_node] at hmem ⊢
      exact hmem.imp_left fun hmem => absurd hmem hnot
    rw [hkeep b (GroupTree.mem_nodes_of_mem_tails hmem') hba]
    exact hb.tails b hmem' hrest s

/-- The word belongs under the root. -/
theorem Built.place_below (hpl : Placed k (h.nalloc p) h.size a (.node a rest sub) o) :
    ∃ sub', Built k (words ++ [p]) ((h.nalloc p).place h.size o) a rest sub' := by
  have hrep := hpl.rep
  cases hs : GroupTree.side ((h.nalloc p).key k h.size) ((h.nalloc p).key k a) with
  | none =>
    rw [GroupTree.insert_of_eq (GroupTree.side_eq_none.mp hs)] at hrep
    exact absurd (Option.some.inj hrep.1) hb.head_ne_size
  | some s =>
    have hins := GroupTree.insert_of_side rest sub hs
    rw [hins] at hrep
    have hkeep : ∀ b ∈ (GroupTree.node a rest sub).tails, ∀ s,
        ((h.nalloc p).place h.size o).link s b = h.link s b := by
      intro b hmem s
      have hne := hb.ne_size (GroupTree.mem_nodes_of_mem_tails hmem)
      rw [hpl.link b (fun hhead => GroupTree.not_mem_tails_of_mem_heads hb.nodup hhead hmem) hne]
      exact Function.update_of_ne hne _ _
    refine ⟨_, hb.place p hins rfl hrep (fun b hmem => ?_) fun b hmem hnot s => ?_⟩
    · rw [hkeep b (GroupTree.mem_tails_rest hmem)]
      exact hb.root b hmem
    · rw [← hins] at hmem
      rcases hpl.tails b hmem with hmem | hnone
      · rw [hkeep b hmem]
        exact hb.tails b hmem hnot s
      · exact hnone s

/-- One more word. -/
theorem Built.step (hfuel : words.length ≤ fuel) :
    ∃ h' a' rest' sub', traverse fuel h (some a) p k = some (h', some a') ∧
      Built k (words ++ [p]) h' a' rest' sub' := by
  obtain ⟨o, ho, hcase⟩ := search_placed (k := k) (Function.update_self _ _ _) (.node a rest sub) fuel a a
    (hb.rep_nalloc p) hb.nodup (hb.fresh p) (hb.count.trans_le hfuel)
  have hrun : traverse fuel h (some a) p k =
      some ((h.nalloc p).place h.size o, some (newHead a h.size o)) := by
    rw [traverse, ho, Option.map_some]
  rcases hcase with ⟨hkey, rfl⟩ | hpl
  · have hhead : newHead a h.size (.found a a) = h.size := if_pos rfl
    rw [hhead] at hrun
    exact ⟨_, _, _, _, hrun, hb.place_root p hkey⟩
  · have hhead : newHead a h.size o = a := by
      cases o with
      | child s t => rfl
      | found q b => exact if_neg (hpl.found q b rfl).2
    rw [hhead] at hrun
    obtain ⟨sub', hbuilt⟩ := hb.place_below p hpl
    exact ⟨_, _, _, _, hrun, hbuilt⟩

end Step

theorem traverseAll_concat (fuel k : ℕ) (words : List CStr) (p : CStr) :
    traverseAll fuel k (words ++ [p]) =
      (traverseAll fuel k words).bind fun s => traverse fuel s.1 s.2 p k := by
  rw [traverseAll, traverseAll, List.foldlM_append]
  cases words.foldlM (fun s p => traverse fuel s.1 s.2 p k) (Heap.empty, none) with
  | none => rfl
  | some s => exact bind_pure (traverse fuel s.1 s.2 p k)

/-- A run over a first word and others. -/
theorem built_cons (k : ℕ) (w : CStr) (words : List CStr) (hfuel : words.length ≤ fuel) :
    ∃ h a rest sub, traverseAll fuel k (w :: words) = some (h, some a) ∧ Built k (w :: words) h a rest sub := by
  induction words using List.reverseRecOn with
  | nil => exact ⟨_, _, _, _, rfl, built_singleton k w⟩
  | append_singleton words p ih =>
    rw [List.length_append, List.length_singleton] at hfuel
    obtain ⟨h, a, rest, sub, hrun, hb⟩ := ih (Nat.le_of_succ_le hfuel)
    obtain ⟨h', a', rest', sub', hstep, hb'⟩ := hb.step p hfuel
    refine ⟨h', a', rest', sub', ?_, hb'⟩
    rw [← List.cons_append, traverseAll_concat, hrun]
    exact hstep

/-- The root group has one node unless its word comes again. -/
theorem Built.rest_eq_nil_iff {w : CStr} (hb : Built k (w :: words) h a rest sub) :
    rest = [] ↔ ∀ u ∈ words, u.take k ≠ w.take k := by
  have hkey : w.take k = h.key k a := hb.first w rfl
  have hgroup := hb.groups (h.key k a)
  rw [GroupTree.lookup, GroupTree.side_eq_none.mpr rfl, ← hkey, List.filter_cons_of_pos (by simp)] at hgroup
  have hlen := congrArg List.length hgroup
  rw [List.length_map, List.length_reverse, List.length_cons, List.length_cons] at hlen
  rw [← List.length_eq_zero_iff, Nat.succ.inj hlen, List.length_eq_zero_iff, List.filter_eq_nil_iff]
  simp only [decide_eq_true_iff]

/-- The structure is the documented one exactly when the root group has one node. -/
theorem Built.documented_iff (hb : Built k words h a rest sub) :
    (∃ t, Documented k words h (some a) t) ↔ rest = [] := by
  constructor
  · rintro ⟨t, ht⟩
    obtain rfl := hb.rep.unique ht.rep
    refine List.eq_nil_iff_forall_not_mem.mpr fun b hmem => hb.root b hmem ?_
    exact ht.tails b (GroupTree.mem_tails_rest hmem) .right
  · rintro rfl
    have htails : ∀ b ∈ (GroupTree.node a [] sub).tails, ∀ s, h.link s b = none := fun b hmem =>
      hb.tails b hmem List.not_mem_nil
    exact ⟨_, hb.toGrouped, hb.rep, htails, fun b hmem => not_transGen_of_acc (hb.rep.acc htails b hmem)⟩

/-- The documented structure holds as long as no later word has the first characters of the first one. -/
theorem traverse_documented_iff (k : ℕ) (words : List CStr) (extra : ℕ) :
    ∃ h head, traverseAll (words.length + extra) k words = some (h, head) ∧
      ((∃ t, Documented k words h head t) ↔ ∀ w ∈ words.head?, ∀ u ∈ words.tail, u.take k ≠ w.take k) := by
  cases words with
  | nil =>
    refine ⟨Heap.empty, none, rfl, iff_of_true ⟨.nil, grouped_nil k _, rfl, ?_, ?_⟩ ?_⟩
    · exact fun _ hb => absurd hb List.not_mem_nil
    · exact fun _ hb => absurd hb List.not_mem_nil
    · exact fun _ hw => nomatch hw
  | cons w words =>
    obtain ⟨h, a, rest, sub, hrun, hb⟩ := built_cons k w words
      (show words.length ≤ (w :: words).length + extra by rw [List.length_cons]; omega)
    refine ⟨h, some a, hrun, ?_⟩
    rw [hb.documented_iff, hb.rest_eq_nil_iff]
    exact ⟨fun hc v hv => by rwa [← Option.some.inj hv], fun hc => hc w rfl⟩

/-- `abcd` and then `abce`, by three characters: the node of `abcd` keeps a link back to its head. -/
theorem old_root_is_linked : ¬∀ (k : ℕ) (words : List CStr) (extra : ℕ), 1 ≤ k →
    ∃ h head t, traverseAll (words.length + extra) k words = some (h, head) ∧ Documented k words h head t := by
  intro hall
  obtain ⟨v, w, hvw⟩ : ∃ v w : CStr, w.take 3 = v.take 3 :=
    ⟨⟨[97, 98, 99, 100], by decide⟩, ⟨[97, 98, 99, 101], by decide⟩, rfl⟩
  obtain ⟨h, head, t, hrun, ht⟩ := hall 3 [v, w] 0 (by decide)
  obtain ⟨h', a, rest, sub, hrun', hb⟩ := built_cons 3 v [w] (show 1 ≤ 2 by decide)
  obtain ⟨rfl, rfl⟩ := Prod.mk.inj (Option.some.inj (hrun.symm.trans hrun'))
  have hnil := hb.documented_iff.mp ⟨t, ht⟩
  exact hb.rest_eq_nil_iff.mp hnil w (List.mem_singleton.mpr rfl) hvw

end Runs

end Csapp.PrefixGroups
